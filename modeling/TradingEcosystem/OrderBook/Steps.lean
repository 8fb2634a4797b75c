import TradingEcosystem.OrderBook

/-! What each elementary step of the order book does: when it returns, with which
result and in which state, and what it leaves alone even when it stops. -/
namespace TradingEcosystem.MEOrderBook
open Program
variable {b b' : MEOrderBook} {u : Unit}

section Reports
variable (l l' : List (Report MEClientResponse)) (m m' : List (Report MEMarketUpdate))

theorem reportResponses_append : (b.reportResponses l).reportResponses l' = b.reportResponses (l ++ l') := by
  simp [reportResponses]

theorem reportUpdates_append : (b.reportUpdates m).reportUpdates m' = b.reportUpdates (m ++ m') := by
  simp [reportUpdates]

end Reports

private theorem guarded_ok {α : Type} {c live : Prop} [Decidable c] [Decidable live] {e : Fault} {r x : α}
    {s t s' : MEOrderBook} :
    (if c ∧ ¬ live then .error e t else .ok r s : EStateM.Result Fault MEOrderBook α) = .ok x s' ↔
      (c → live) ∧ x = r ∧ s' = s := by
  by_cases h : c ∧ ¬ live
  · rw [if_pos h]
    exact ⟨nofun, fun hc => absurd (hc.1 h.1) h.2⟩
  · rw [if_neg h, EStateM.Result.ok.injEq]
    exact ⟨fun hr => ⟨fun hc => by_contra fun hl => h ⟨hc, hl⟩, hr.1.symm, hr.2.symm⟩,
      fun hr => ⟨hr.2.1.symm, hr.2.2.symm⟩⟩

theorem order_ok {q : Option OrderPtr} {o : MEOrder} : order q b = .ok o b' ↔
    ∃ p, q = some p ∧ (b.strict = true → b.orderPool.Live p) ∧ o = b.orderPool.get p ∧ b' = b := by
  cases q with
  | none => simp [order]
  | some p => simp only [order, Option.some.injEq, exists_eq_left', guarded_ok]

theorem setOrder_ok {f : MEOrder → MEOrder} {q : Option OrderPtr} : setOrder f q b = .ok u b' ↔
    ∃ p, q = some p ∧ (b.strict = true → b.orderPool.Live p) ∧
      b' = b.writeOrder p f := by
  cases q with
  | none => simp [setOrder]
  | some p => simp only [setOrder, Option.some.injEq, exists_eq_left', guarded_ok, true_and]

theorem level_ok {q : Option LevelPtr} {l : MEOrdersAtPrice} : level q b = .ok l b' ↔
    ∃ p, q = some p ∧ (b.strict = true → b.ordersAtPricePool.Live p) ∧
      l = b.ordersAtPricePool.get p ∧ b' = b := by
  cases q with
  | none => simp [level]
  | some p => simp only [level, Option.some.injEq, exists_eq_left', guarded_ok]

theorem setLevel_ok {f : MEOrdersAtPrice → MEOrdersAtPrice} {q : Option LevelPtr} :
    setLevel f q b = .ok u b' ↔
      ∃ p, q = some p ∧ (b.strict = true → b.ordersAtPricePool.Live p) ∧
        b' = b.writeLevel p f := by
  cases q with
  | none => simp [setLevel]
  | some p => simp only [setLevel, Option.some.injEq, exists_eq_left', guarded_ok, true_and]

/-- The book after a block was taken for an order. -/
def taken (b : MEOrderBook) (p : OrderPtr) (o : MEOrder) (next : Nat) : MEOrderBook :=
  { b with orderPool := b.orderPool.take p o next }

theorem allocateOrder_ok {o : MEOrder} {p : OrderPtr} (h : allocateOrder o b = .ok p b') :
    p = b.orderPool.nextFreeIndex ∧ ¬ b.orderPool.Live p ∧ ∃ next,
      (b.orderPool.nextFreeIndex < b.orderPool.size → next < b.orderPool.size) ∧ b' = b.taken p o next := by
  unfold allocateOrder at h
  split at h
  · rename_i ha
    cases h
    obtain ⟨hp, hl, next, rfl, hn⟩ := MemPool.allocate_eq_ok ha
    exact ⟨hp, hl, next, hn, rfl⟩
  · cases h

theorem allocateOrder_final (o : MEOrder) (b : MEOrderBook) :
    final (allocateOrder o b) = b ∨ ∃ p next, final (allocateOrder o b) = b.taken p o next := by
  cases h : allocateOrder o b with
  | ok p b' =>
    obtain ⟨-, -, next, -, rfl⟩ := allocateOrder_ok h
    exact .inr ⟨p, next, rfl⟩
  | error e b' =>
    unfold allocateOrder at h
    split at h
    · cases h
    · cases h; exact .inl rfl

theorem allocateLevel_ok {l : MEOrdersAtPrice} {p : LevelPtr} (h : allocateLevel l b = .ok p b') :
    p = b.ordersAtPricePool.nextFreeIndex ∧ ¬ b.ordersAtPricePool.Live p ∧ ∃ next,
      (b.ordersAtPricePool.nextFreeIndex < b.ordersAtPricePool.size → next < b.ordersAtPricePool.size) ∧
      b' = { b with ordersAtPricePool := b.ordersAtPricePool.take p l next } := by
  unfold allocateLevel at h
  split at h
  · rename_i ha
    cases h
    obtain ⟨hp, hl, next, rfl, hn⟩ := MemPool.allocate_eq_ok ha
    exact ⟨hp, hl, next, hn, rfl⟩
  · cases h

theorem deallocateOrder_ok {q : Option OrderPtr} : deallocateOrder q b = .ok u b' ↔
    ∃ p, q = some p ∧ p < b.orderPool.size ∧ b.orderPool.Live p ∧
      b' = { b with orderPool := b.orderPool.release p } := by
  cases q with
  | none => simp [deallocateOrder]
  | some p =>
    simp only [deallocateOrder, Option.some.injEq, exists_eq_left']
    cases hd : b.orderPool.deallocate p with
    | ok pool =>
      obtain ⟨h₁, h₂, rfl⟩ := MemPool.deallocate_eq_ok_iff.mp hd
      simp [h₁, h₂, eq_comm]
    | error e =>
      simp only [reduceCtorEq, false_iff, not_and]
      intro h₁ h₂
      rw [MemPool.deallocate_eq_ok_iff.mpr ⟨h₁, h₂, rfl⟩] at hd
      cases hd

theorem deallocateLevel_ok {q : Option LevelPtr} : deallocateLevel q b = .ok u b' ↔
    ∃ p, q = some p ∧ p < b.ordersAtPricePool.size ∧ b.ordersAtPricePool.Live p ∧
      b' = { b with ordersAtPricePool := b.ordersAtPricePool.release p } := by
  cases q with
  | none => simp [deallocateLevel]
  | some p =>
    simp only [deallocateLevel, Option.some.injEq, exists_eq_left']
    cases hd : b.ordersAtPricePool.deallocate p with
    | ok pool =>
      obtain ⟨h₁, h₂, rfl⟩ := MemPool.deallocate_eq_ok_iff.mp hd
      simp [h₁, h₂, eq_comm]
    | error e =>
      simp only [reduceCtorEq, false_iff, not_and]
      intro h₁ h₂
      rw [MemPool.deallocate_eq_ok_iff.mpr ⟨h₁, h₂, rfl⟩] at hd
      cases hd

theorem getOrdersAtPrice_ok {price : Price} {r : Option LevelPtr} : getOrdersAtPrice price b = .ok r b' ↔
    r = b.priceOrdersAtPriceHashMap (priceToIndex price) ∧ b' = b := by
  simp [getOrdersAtPrice, bind_apply, eq_comm]

theorem setOrdersAtPrice_ok {price : Price} {q : Option LevelPtr} : setOrdersAtPrice price q b = .ok u b' ↔
    b' = { b with
      priceOrdersAtPriceHashMap := Function.update b.priceOrdersAtPriceHashMap (priceToIndex price) q } := by
  simp [setOrdersAtPrice, eq_comm]

theorem bestOrdersByPrice_ok {side : Side} {r : Option LevelPtr} : bestOrdersByPrice side b = .ok r b' ↔
    r = (if side = .BUY then b.bidsAtPrice else b.asksAtPrice) ∧ b' = b := by
  simp [bestOrdersByPrice, bind_apply, eq_comm]

theorem assignBestOrdersByPrice_ok {side : Side} {q : Option LevelPtr} :
    assignBestOrdersByPrice side q b = .ok u b' ↔
      b' = if side = .BUY then b else { b with asksAtPrice := q } := by
  unfold assignBestOrdersByPrice
  split <;> simp [eq_comm]

theorem setCidOidToOrder_ok {c : ClientId} {k : OrderId} {q : Option OrderPtr} :
    setCidOidToOrder c k q b = .ok u b' ↔
      (c.toNat < ME_MAX_NUM_CLIENTS ∧ k.toNat < ME_MAX_ORDER_IDS) ∧
        b' = { b with cidOidToOrder := fun c' k' => if c' = c ∧ k' = k then q else b.cidOidToOrder c' k' } := by
  unfold setCidOidToOrder
  split <;> simp_all [eq_comm]

/-! Through a pointer to a block in use every step returns. -/

theorem order_of_live {p : OrderPtr} (h : b.orderPool.Live p) :
    order (some p) b = .ok (b.orderPool.get p) b := order_ok.mpr ⟨p, rfl, fun _ => h, rfl, rfl⟩

theorem setOrder_of_live {f : MEOrder → MEOrder} {p : OrderPtr} (h : b.orderPool.Live p) :
    setOrder f (some p) b = .ok () (b.writeOrder p f) :=
  setOrder_ok.mpr ⟨p, rfl, fun _ => h, rfl⟩

theorem level_of_live {p : LevelPtr} (h : b.ordersAtPricePool.Live p) :
    level (some p) b = .ok (b.ordersAtPricePool.get p) b := level_ok.mpr ⟨p, rfl, fun _ => h, rfl, rfl⟩

theorem setLevel_of_live {f : MEOrdersAtPrice → MEOrdersAtPrice} {p : LevelPtr}
    (h : b.ordersAtPricePool.Live p) :
    setLevel f (some p) b = .ok () (b.writeLevel p f) :=
  setLevel_ok.mpr ⟨p, rfl, fun _ => h, rfl⟩

/-! ## Frames -/

/-- The members that no pointer operation writes. -/
def journal (b : MEOrderBook) :=
  (b.clientResponses, b.marketUpdates, b.issued, b.nextMarketOrderId, b.bidsAtPrice, b.strict)

/-- Which order an `add` call built in each block, and under which id. -/
def stamps (b : MEOrderBook) (p : OrderPtr) : Option Nat × OrderId :=
  ((b.orderPool.get p).addNo, (b.orderPool.get p).marketOrderId)

def ledger (b : MEOrderBook) := (b.stamps, b.journal)

/-- The book without its level rings: no `asks_at_price_`, no entry links. -/
def forget (b : MEOrderBook) : MEOrderBook :=
  { b with
    asksAtPrice := none
    ordersAtPricePool := { b.ordersAtPricePool with
      store := fun p => { b.ordersAtPricePool.store p with
        object := { (b.ordersAtPricePool.store p).object with prevEntry := none, nextEntry := none } } } }

/-- Only level links differ. -/
def Relinked (b b' : MEOrderBook) : Prop := Fixes forget b b'

instance : IsPreorder MEOrderBook Relinked := inferInstanceAs (IsPreorder _ (Fixes forget))

/-- The calls that read and write level links only. -/
abbrev Relinks {α : Type} (x : BookM α) : Prop := Frame Relinked x

/-- The calls that send no message, draw no id and build no order. -/
abbrev Quiet {α : Type} (x : BookM α) : Prop := Frame (Fixes ledger) x

/-- Whatever does not depend on level links stays as it was. -/
theorem Relinked.view {γ : Type} (v : MEOrderBook → γ) (hv : ∀ b, v (forget b) = v b)
    (h : Relinked b b') : v b' = v b := by
  rw [← hv b', ← hv b, show forget b' = forget b from h]

theorem quiet_of_relinks {α : Type} {x : BookM α} (h : Relinks x) : Quiet x :=
  h.mono fun _ _ e => e.view ledger (fun _ => rfl)

section Forget
variable (h : Relinked b b')
include h

theorem Relinked.orderPool : b'.orderPool = b.orderPool := h.view _ (fun _ => rfl)
theorem Relinked.slots : b'.priceOrdersAtPriceHashMap = b.priceOrdersAtPriceHashMap :=
  h.view _ (fun _ => rfl)
theorem Relinked.index : b'.cidOidToOrder = b.cidOidToOrder := h.view _ (fun _ => rfl)
theorem Relinked.journal : b'.journal = b.journal := h.view _ (fun _ => rfl)
theorem Relinked.levelSize : b'.ordersAtPricePool.size = b.ordersAtPricePool.size :=
  h.view (fun b => b.ordersAtPricePool.size) (fun _ => rfl)
theorem Relinked.levelCursor : b'.ordersAtPricePool.nextFreeIndex = b.ordersAtPricePool.nextFreeIndex :=
  h.view (fun b => b.ordersAtPricePool.nextFreeIndex) (fun _ => rfl)
theorem Relinked.levelLive (p : LevelPtr) : b'.ordersAtPricePool.Live p ↔ b.ordersAtPricePool.Live p :=
  iff_of_eq (h.view (fun b => b.ordersAtPricePool.Live p) (fun _ => rfl))
theorem Relinked.levelSide (p : LevelPtr) :
    (b'.ordersAtPricePool.get p).side = (b.ordersAtPricePool.get p).side :=
  h.view (fun b => (b.ordersAtPricePool.get p).side) (fun _ => rfl)
theorem Relinked.levelPrice (p : LevelPtr) :
    (b'.ordersAtPricePool.get p).price = (b.ordersAtPricePool.get p).price :=
  h.view (fun b => (b.ordersAtPricePool.get p).price) (fun _ => rfl)
theorem Relinked.levelFirst (p : LevelPtr) :
    (b'.ordersAtPricePool.get p).firstMeOrder = (b.ordersAtPricePool.get p).firstMeOrder :=
  h.view (fun b => (b.ordersAtPricePool.get p).firstMeOrder) (fun _ => rfl)

end Forget

theorem frame_order {R : MEOrderBook → MEOrderBook → Prop} [IsPreorder _ R] (q : Option OrderPtr) :
    Frame R (order q) := by
  intro b
  cases q with
  | none => exact refl_of R b
  | some p => dsimp only [MEOrderBook.order]; split <;> exact refl_of R b

theorem frame_level {R : MEOrderBook → MEOrderBook → Prop} [IsPreorder _ R] (q : Option LevelPtr) :
    Frame R (level q) := by
  intro b
  cases q with
  | none => exact refl_of R b
  | some p => dsimp only [MEOrderBook.level]; split <;> exact refl_of R b

theorem frame_setOrder {R : MEOrderBook → MEOrderBook → Prop} [IsPreorder _ R] {f : MEOrder → MEOrder}
    (hf : ∀ b p, R b (b.writeOrder p f)) (q : Option OrderPtr) :
    Frame R (setOrder f q) := by
  intro b
  cases q with
  | none => exact refl_of R b
  | some p =>
    dsimp only [MEOrderBook.setOrder]
    split
    · exact refl_of R b
    · exact hf b p

theorem frame_setLevel {R : MEOrderBook → MEOrderBook → Prop} [IsPreorder _ R]
    {f : MEOrdersAtPrice → MEOrdersAtPrice}
    (hf : ∀ b p, R b (b.writeLevel p f)) (q : Option LevelPtr) :
    Frame R (setLevel f q) := by
  intro b
  cases q with
  | none => exact refl_of R b
  | some p =>
    dsimp only [MEOrderBook.setLevel]
    split
    · exact refl_of R b
    · exact hf b p

theorem forget_setLevel {f : MEOrdersAtPrice → MEOrdersAtPrice} (b : MEOrderBook) (p : LevelPtr)
    (hf : ∀ l, { f l with prevEntry := none, nextEntry := none } = { l with prevEntry := none, nextEntry := none }) :
    Relinked b (b.writeLevel p f) := by
  simp only [Relinked, Fixes, forget, writeLevel, MemPool.write, MEOrderBook.mk.injEq, MemPool.mk.injEq, true_and, and_true]
  funext q
  by_cases hq : q = p
  · subst hq; simp [hf]
  · simp [hq]

theorem relinks_setLevel {f : MEOrdersAtPrice → MEOrdersAtPrice} (q : Option LevelPtr)
    (hf : ∀ l, { f l with prevEntry := none, nextEntry := none } = { l with prevEntry := none, nextEntry := none }) :
    Relinks (setLevel f q) :=
  frame_setLevel (fun b p => forget_setLevel b p hf) q

theorem relinks_bestOrdersByPrice (side : Side) : Relinks (bestOrdersByPrice side) := fun _ => rfl

theorem relinks_assignBestOrdersByPrice (side : Side) (q : Option LevelPtr) :
    Relinks (assignBestOrdersByPrice side q) :=
  .ite (.pure _) fun _ => rfl

theorem relinks_addAfterLoop (new : LevelPtr) (best : Option LevelPtr) (fuel : Nat) (after : Bool)
    (target : Option LevelPtr) : Relinks (addAfterLoop new best fuel after target) := by
  induction fuel generalizing after target with
  | zero => exact .throw _
  | succ fuel ih =>
    refine .ite ?_ (.pure _)
    refine .bind (frame_level _) fun n => .bind (frame_level _) fun t => .ite (ih _ _) (ih _ _)

theorem relinks_findTarget (new : LevelPtr) (best : Option LevelPtr) : Relinks (findTarget new best) := by
  refine .bind (frame_level _) fun n => .bind (frame_level _) fun t => .ite ?_ (relinks_addAfterLoop _ _ _ _ _)
  exact .bind (frame_level _) fun t => relinks_addAfterLoop _ _ _ _ _

theorem relinks_linkAfter (new : LevelPtr) (target : Option LevelPtr) : Relinks (linkAfter new target) := by
  refine .bind (relinks_setLevel _ fun l => rfl) fun _ => .bind (frame_level _) fun t => ?_
  exact .bind (relinks_setLevel _ fun l => rfl) fun _ => relinks_setLevel _ fun l => rfl

theorem relinks_insertAfter (new : LevelPtr) (best target : Option LevelPtr) :
    Relinks (insertAfter new best target) :=
  .ite (.bind (frame_level _) fun _ => relinks_linkAfter _ _) (relinks_linkAfter _ _)

theorem relinks_insertBefore (new : LevelPtr) (best target : Option LevelPtr) :
    Relinks (insertBefore new best target) := by
  refine .bind (frame_level _) fun t => .bind (relinks_setLevel _ fun l => rfl) fun _ => ?_
  refine .bind (relinks_setLevel _ fun l => rfl) fun _ => .bind (frame_level _) fun t => ?_
  refine .bind (relinks_setLevel _ fun l => rfl) fun _ => .bind (relinks_setLevel _ fun l => rfl) fun _ => ?_
  refine .bind (frame_level _) fun n => .bind (frame_level _) fun l => .ite ?_ (.pure _)
  exact .bind (frame_level _) fun t => .bind (relinks_setLevel _ fun l => rfl) fun _ => relinks_assignBestOrdersByPrice _ _

theorem relinks_unlinkLevel (side : Side) (best ordersAtPrice : Option LevelPtr) :
    Relinks (unlinkLevel side best ordersAtPrice) := by
  refine .bind (frame_level _) fun l => .ite (relinks_assignBestOrdersByPrice _ _) ?_
  refine .bind (relinks_setLevel _ fun _ => rfl) fun _ => .bind (frame_level _) fun _ => ?_
  refine .bind (relinks_setLevel _ fun _ => rfl) fun _ => ?_
  refine .ite (.bind (frame_level _) fun _ => .bind (relinks_assignBestOrdersByPrice _ _) fun _ => ?_) ?_
  · exact relinks_setLevel _ fun _ => rfl
  · exact relinks_setLevel _ fun _ => rfl

/-! Calls on pointers send no message and draw no id. -/

theorem Quiet.journal {α : Type} {x : BookM α} (h : Quiet x) : Frame (Fixes MEOrderBook.journal) x :=
  h.mono fun _ _ e => congrArg Prod.snd e

theorem quiet_setOrder {f : MEOrder → MEOrder} (q : Option OrderPtr)
    (hf : ∀ o, (f o).addNo = o.addNo ∧ (f o).marketOrderId = o.marketOrderId) : Quiet (setOrder f q) := by
  refine frame_setOrder (fun b p => ?_) q
  simp only [Fixes, ledger, Prod.mk.injEq]
  refine ⟨funext fun r => ?_, rfl⟩
  simp only [stamps, writeOrder_orderPool, MemPool.get_write]
  split_ifs with h
  · rw [h, (hf _).1, (hf _).2]
  · rfl

theorem quiet_setLevel (f : MEOrdersAtPrice → MEOrdersAtPrice) (q : Option LevelPtr) : Quiet (setLevel f q) :=
  frame_setLevel (fun _ _ => rfl) q

theorem quiet_setCidOidToOrder (c : ClientId) (k : OrderId) (q : Option OrderPtr) :
    Quiet (setCidOidToOrder c k q) := .ite (fun _ => rfl) (.throw _)

theorem journal_allocateOrder (o : MEOrder) : Frame (Fixes journal) (allocateOrder o) := by
  intro b
  unfold allocateOrder
  split <;> rfl

theorem quiet_deallocateOrder (q : Option OrderPtr) : Quiet (deallocateOrder q) := by
  intro b
  unfold deallocateOrder
  split
  · rfl
  · rename_i p
    split
    · rename_i pool hd
      obtain ⟨-, -, rfl⟩ := MemPool.deallocate_eq_ok_iff.mp hd
      simp only [Fixes, ledger, Prod.mk.injEq]
      exact ⟨funext fun q => by simp [stamps], rfl⟩
    · rfl

theorem quiet_allocateLevel (l : MEOrdersAtPrice) : Quiet (allocateLevel l) := by
  intro b
  unfold allocateLevel
  split <;> rfl

theorem quiet_deallocateLevel (q : Option LevelPtr) : Quiet (deallocateLevel q) := by
  intro b
  unfold deallocateLevel
  split
  · rfl
  · split <;> rfl

theorem quiet_removeOrdersAtPrice (side : Side) (price : Price) : Quiet (removeOrdersAtPrice side price) := by
  refine .bind (fun _ => rfl) fun best => .bind (fun _ => rfl) fun slot => .bind ?_ fun _ => ?_
  · exact quiet_of_relinks (relinks_unlinkLevel _ _ _)
  · exact .bind (fun _ => rfl) fun _ => quiet_deallocateLevel _

theorem quiet_removeOrder (q : Option OrderPtr) : Quiet (removeOrder q) := by
  refine .bind (frame_order _) fun o => .bind (fun _ => rfl) fun slot => .bind (.ite ?_ ?_) fun _ => ?_
  · exact quiet_removeOrdersAtPrice _ _
  · refine .bind (quiet_setOrder _ fun _ => ⟨rfl, rfl⟩) fun _ => .bind (quiet_setOrder _ fun _ => ⟨rfl, rfl⟩) fun _ => .bind (frame_level _) fun l => ?_
    exact .ite (.bind (quiet_setLevel _ _) fun _ => quiet_setOrder _ fun _ => ⟨rfl, rfl⟩) (quiet_setOrder _ fun _ => ⟨rfl, rfl⟩)
  · exact .bind (quiet_setCidOidToOrder _ _ _) fun _ => quiet_deallocateOrder _

theorem quiet_addOrdersAtPrice (n : LevelPtr) : Quiet (addOrdersAtPrice n) := by
  refine .bind (frame_level _) fun l => .bind (fun _ => rfl) fun _ => quiet_of_relinks ?_
  refine .bind (relinks_bestOrdersByPrice _) fun best => .ite ?_ ?_
  · exact .bind (relinks_assignBestOrdersByPrice _ _) fun _ => relinks_setLevel _ fun _ => rfl
  · exact .bind (relinks_findTarget _ _) fun r => .ite (relinks_insertAfter _ _ _) (relinks_insertBefore _ _ _)

theorem quiet_linkOrder (p : OrderPtr) (o : MEOrder) (slot : Option LevelPtr) : Quiet (linkOrder p o slot) := by
  refine .ite (.bind (quiet_setOrder _ fun _ => ⟨rfl, rfl⟩) fun _ => .bind (quiet_allocateLevel _) fun n => quiet_addOrdersAtPrice n) ?_
  refine .bind (frame_level _) fun l => .bind (frame_order _) fun o => .bind (quiet_setOrder _ fun _ => ⟨rfl, rfl⟩) fun _ => ?_
  refine .bind (frame_order _) fun o => .bind (quiet_setOrder _ fun _ => ⟨rfl, rfl⟩) fun _ => ?_
  exact .bind (quiet_setOrder _ fun _ => ⟨rfl, rfl⟩) fun _ => quiet_setOrder _ fun _ => ⟨rfl, rfl⟩

theorem quiet_addOrder (p : OrderPtr) : Quiet (addOrder p) := by
  refine .bind (frame_order _) fun o => .bind (fun _ => rfl) fun slot => .bind (quiet_linkOrder _ _ _) fun _ => ?_
  exact quiet_setCidOidToOrder _ _ _

theorem quiet_getNextPriority (price : Price) : Quiet (getNextPriority price) := by
  refine .bind (fun _ => rfl) fun slot => .ite (.pure _) (.bind (frame_level _) fun l => ?_)
  exact .bind (frame_order _) fun o => .bind (frame_order _) fun o => .pure _

/-! Calls on pointers stop where a pointer or a pool is at fault. -/

theorem raises_checked {α : Type} {c : MEOrderBook → Prop} [DecidablePred c] {v : MEOrderBook → α}
    {g : MEOrderBook → MEOrderBook} : Raises Fault.OfPointer
      (fun b => if c b then .error .freedDeref b else .ok (v b) (g b) : BookM α) := by
  intro b e b' h
  dsimp only at h
  split_ifs at h
  cases h
  trivial

theorem raises_order (q : Option OrderPtr) : Raises Fault.OfPointer (order q) := by
  cases q with
  | none => exact .throw trivial
  | some p => exact raises_checked

theorem raises_setOrder (f : MEOrder → MEOrder) (q : Option OrderPtr) : Raises Fault.OfPointer (setOrder f q) := by
  cases q with
  | none => exact .throw trivial
  | some p => exact raises_checked

theorem raises_level (q : Option LevelPtr) : Raises Fault.OfPointer (level q) := by
  cases q with
  | none => exact .throw trivial
  | some p => exact raises_checked

theorem raises_setLevel (f : MEOrdersAtPrice → MEOrdersAtPrice) (q : Option LevelPtr) : Raises Fault.OfPointer (setLevel f q) := by
  cases q with
  | none => exact .throw trivial
  | some p => exact raises_checked

theorem raises_allocateOrder (o : MEOrder) : Raises Fault.OfHeap (allocateOrder o) := by
  intro b e b' h
  unfold allocateOrder at h
  split at h
  · cases h
  · rename_i ha
    cases h
    exact MemPool.allocate_error ha

theorem raises_allocateLevel (l : MEOrdersAtPrice) : Raises Fault.OfHeap (allocateLevel l) := by
  intro b e b' h
  unfold allocateLevel at h
  split at h
  · cases h
  · rename_i ha
    cases h
    exact MemPool.allocate_error ha

theorem raises_deallocateOrder (q : Option OrderPtr) : Raises Fault.OfHeap (deallocateOrder q) := by
  intro b e b' h
  cases q with
  | none =>
    cases h
    trivial
  | some p =>
    dsimp only [deallocateOrder] at h
    split at h
    · cases h
    · rename_i hd
      cases h
      exact MemPool.deallocate_error hd

theorem raises_deallocateLevel (q : Option LevelPtr) : Raises Fault.OfHeap (deallocateLevel q) := by
  intro b e b' h
  cases q with
  | none =>
    cases h
    trivial
  | some p =>
    dsimp only [deallocateLevel] at h
    split at h
    · cases h
    · rename_i hd
      cases h
      exact MemPool.deallocate_error hd

/-- What every call but the sending of responses and the drawing of ids leaves alone. -/
def answers (b : MEOrderBook) := (b.clientResponses, b.issued, b.nextMarketOrderId, b.bidsAtPrice, b.strict)

theorem answers_of_journal {α : Type} {x : BookM α} (h : Frame (Fixes journal) x) : Frame (Fixes answers) x :=
  h.mono fun b b' e => by
    simp only [Fixes, journal, answers, Prod.mk.injEq] at e ⊢
    exact ⟨e.1, e.2.2⟩

theorem answers_rest (no : Nat) (clientId : ClientId) (clientOrderId : OrderId) (tickerId : TickerId) (side : Side)
    (price : Price) (leavesQty : Qty) (id : OrderId) :
    Frame (Fixes answers) (rest no clientId clientOrderId tickerId side price leavesQty id) := by
  refine .bind (answers_of_journal (quiet_getNextPriority _).journal) fun r => ?_
  refine .bind (answers_of_journal (journal_allocateOrder _)) fun p => ?_
  exact .bind (answers_of_journal (quiet_addOrder _).journal) fun _ _ => rfl

end TradingEcosystem.MEOrderBook
