import TradingEcosystem.OrderBook.Steps

/-! `match`, the loop of `checkForMatch`, `add` and `cancel` cut into steps: what one
turn does, and the rules by which a property of single steps becomes one of a call. -/
namespace TradingEcosystem.MEOrderBook
open Program
variable {b b' : MEOrderBook} {p : OrderPtr} {u : Unit} {e : Fault} {leaves leaves' : Qty}

/-- The order that an `add` call is about, as its parts see it. -/
structure Incoming where
  no : Nat
  clientId : ClientId
  clientOrderId : OrderId
  tickerId : TickerId
  side : Side
  price : Price
  id : OrderId

namespace Incoming

/-- The market order id that `checkForMatch` receives. -/
def fillId (x : Incoming) : OrderId := x.id.toUInt32.toUInt64

def trade (x : Incoming) : Option OrderPtr → Qty → BookM Qty :=
  match_ x.no x.tickerId x.clientId x.side x.clientOrderId x.fillId

def matching (x : Incoming) (qty : Qty) : BookM Qty :=
  checkForMatch x.no x.clientId x.clientOrderId x.tickerId x.side x.price qty x.id.toUInt32

def rest (x : Incoming) (leaves : Qty) : BookM Unit :=
  MEOrderBook.rest x.no x.clientId x.clientOrderId x.tickerId x.side x.price leaves x.id

end Incoming

def incoming (b : MEOrderBook) (clientId : ClientId) (clientOrderId : OrderId) (tickerId : TickerId) (side : Side)
    (price : Price) : Incoming :=
  ⟨b.issued.length, clientId, clientOrderId, tickerId, side, price, b.nextMarketOrderId⟩

/-- The two responses of a fill: to the incoming order and to the resting order `o`. -/
def fillResponses (x : Incoming) (o : MEOrder) (leaves : Qty) : List (Report MEClientResponse) :=
  let fill := min leaves o.qty
  [⟨some x.no,
    { type := .FILLED, clientId := x.clientId, tickerId := x.tickerId, clientOrderId := x.clientOrderId,
      marketOrderId := x.fillId, side := x.side, price := o.price, execQty := fill, leavesQty := leaves - fill }⟩,
   ⟨o.addNo,
    { type := .FILLED, clientId := o.clientId, tickerId := x.tickerId, clientOrderId := o.clientOrderId,
      marketOrderId := o.marketOrderId, side := o.side, price := o.price, execQty := fill,
      leavesQty := o.qty - fill }⟩]

/-- The two market updates of a fill. -/
def fillUpdates (x : Incoming) (o : MEOrder) (leaves : Qty) : List (Report MEMarketUpdate) :=
  let fill := min leaves o.qty
  [⟨none,
    { type := .TRADE, orderId := orderIdInvalid, tickerId := x.tickerId, side := x.side, price := o.price,
      qty := fill, priority := priorityInvalid }⟩,
   ⟨o.addNo,
      if o.qty - fill = 0 then
        { type := .CANCEL, orderId := o.marketOrderId, tickerId := x.tickerId, side := o.side, price := o.price,
          qty := o.qty, priority := priorityInvalid }
      else
        { type := .MODIFY, orderId := o.marketOrderId, tickerId := x.tickerId, side := o.side, price := o.price,
          qty := o.qty - fill, priority := o.priority }⟩]

/-- The book after a fill of the order at `p`, before the order is removed if it is full. -/
@[simps! -fullyApplied cidOidToOrder ordersAtPricePool bidsAtPrice asksAtPrice priceOrdersAtPriceHashMap nextMarketOrderId
  issued strict clientResponses marketUpdates]
def filled (b : MEOrderBook) (x : Incoming) (p : OrderPtr) (leaves : Qty) : MEOrderBook :=
  ((b.writeOrder p fun o => { o with qty := o.qty - min leaves (b.orderPool.get p).qty }).reportResponses
    (fillResponses x (b.orderPool.get p) leaves)).reportUpdates (fillUpdates x (b.orderPool.get p) leaves)

section Filled
variable (x : Incoming) (q : OrderPtr)

@[simp] theorem filled_size : (b.filled x p leaves).orderPool.size = b.orderPool.size := rfl
@[simp] theorem filled_cursor : (b.filled x p leaves).orderPool.nextFreeIndex = b.orderPool.nextFreeIndex := rfl
@[simp] theorem live_filled : (b.filled x p leaves).orderPool.Live q ↔ b.orderPool.Live q := by simp [filled]

theorem get_filled : (b.filled x p leaves).orderPool.get q =
    if q = p then { b.orderPool.get p with qty := (b.orderPool.get p).qty - min leaves (b.orderPool.get p).qty }
    else b.orderPool.get q := by
  simp [filled, MemPool.get_write]

/-- A fill changes no field but the quantity. -/
theorem view_filled {γ : Type} (v : MEOrder → γ)
    (hv : ∀ (o : MEOrder) (n : Qty), v { o with qty := n } = v o := by intros; rfl) :
    v ((b.filled x p leaves).orderPool.get q) = v (b.orderPool.get q) := by
  rw [get_filled]
  split_ifs with h
  · rw [h]; exact hv _ _
  · rfl

end Filled

private theorem get_self_write (f : MEOrder → MEOrder) :
    (b.writeOrder p f).orderPool.get p = f (b.orderPool.get p) := by
  rw [writeOrder_orderPool, MemPool.get_write, if_pos rfl]

theorem trade_apply (x : Incoming) (hs : b.strict = true → b.orderPool.Live p) :
    x.trade (some p) leaves b =
      if (b.orderPool.get p).qty - min leaves (b.orderPool.get p).qty = 0 then
        match removeOrder (some p) (b.filled x p leaves) with
        | .ok _ b' => .ok (leaves - min leaves (b.orderPool.get p).qty) b'
        | .error e b' => .error e b'
      else .ok (leaves - min leaves (b.orderPool.get p).qty) (b.filled x p leaves) := by
  have h₁ : order (some p) b = .ok (b.orderPool.get p) b := order_ok.mpr ⟨p, rfl, hs, rfl, rfl⟩
  have h₂ : ∀ f, setOrder f (some p) b = .ok () (b.writeOrder p f) := fun f => setOrder_ok.mpr ⟨p, rfl, hs, rfl⟩
  have h₃ : ∀ f, order (some p) (b.writeOrder p f) = .ok (f (b.orderPool.get p)) (b.writeOrder p f) := fun f =>
    order_ok.mpr ⟨p, rfl, by simpa using hs, (get_self_write f).symm, rfl⟩
  unfold Incoming.trade match_
  rw [bind_of_ok h₁, bind_of_ok (h₂ _), bind_of_ok (h₃ _)]
  simp only [sendClientResponse, sendMarketUpdate, settle, bind_apply, modify_apply]
  split_ifs with h
  · rw [bind_of_ok (modify_apply _), reportResponses_append, reportUpdates_append]
    simp only [filled, fillResponses, fillUpdates, if_pos h, List.singleton_append]
    generalize removeOrder (some p) _ = r
    cases r <;> rfl
  · simp only [modify_apply, reportResponses_append, reportUpdates_append, filled, fillResponses, fillUpdates,
      if_neg h, List.singleton_append, pure_apply]

/-- A turn that returns: the fill, and after it the removal of a full order. -/
theorem trade_ok (x : Incoming) (h : x.trade (some p) leaves b = .ok leaves' b') :
    leaves' = leaves - min leaves (b.orderPool.get p).qty ∧
      (((b.orderPool.get p).qty - min leaves (b.orderPool.get p).qty ≠ 0 ∧ b' = b.filled x p leaves) ∨
        ((b.orderPool.get p).qty - min leaves (b.orderPool.get p).qty = 0 ∧
          removeOrder (some p) (b.filled x p leaves) = .ok () b')) := by
  by_cases hs : b.strict = true → b.orderPool.Live p
  · rw [trade_apply x hs] at h
    split_ifs at h with hq
    · cases hr : removeOrder (some p) (b.filled x p leaves) with
      | ok _ b₁ =>
        rw [hr] at h
        cases h
        exact ⟨rfl, .inr ⟨hq, rfl⟩⟩
      | error e b₁ => rw [hr] at h; cases h
    · cases h
      exact ⟨rfl, .inl ⟨hq, rfl⟩⟩
  · exfalso
    unfold Incoming.trade match_ at h
    obtain ⟨o, b₁, ho, -⟩ := bind_eq_ok.mp h
    obtain ⟨q, hq, hl, -⟩ := order_ok.mp ho
    exact hs (Option.some.inj hq ▸ hl)

/-- A turn that stops: before anything happened, or in the removal of the full order. -/
theorem trade_error (x : Incoming) (h : x.trade (some p) leaves b = .error e b') :
    b' = b ∨ removeOrder (some p) (b.filled x p leaves) = .error e b' := by
  by_cases hs : b.strict = true → b.orderPool.Live p
  · rw [trade_apply x hs] at h
    split_ifs at h with hq
    cases hr : removeOrder (some p) (b.filled x p leaves) with
    | ok _ b₁ => rw [hr] at h; cases h
    | error e b₁ =>
      rw [hr] at h
      cases h
      exact .inr rfl
  · left
    unfold Incoming.trade match_ at h
    have ho : order (some p) b = .error .freedDeref b := by
      simp only [order]
      rw [if_pos (by simpa [Classical.not_imp] using hs)]
    rw [bind_of_error ho] at h
    cases h
    rfl

/-! ## The loop -/

/-- A turn of a matching loop over `best`: the incoming order is open and meets the first
order of the best level, whose price does not stop the loop. -/
structure Turn (best : MEOrderBook → Option LevelPtr) (stop : Price → Bool) (b : MEOrderBook) (leaves : Qty)
    (p : OrderPtr) : Prop where
  unfilled : leaves ≠ 0
  first : ∃ ℓ, best b = some ℓ ∧ (b.strict = true → b.ordersAtPricePool.Live ℓ) ∧
    (b.ordersAtPricePool.get ℓ).firstMeOrder = some p
  checked : b.strict = true → b.orderPool.Live p
  meets : stop (b.orderPool.get p).price = false

/-- The loop is over: the incoming order is full, the side is empty, or its best price is too bad. -/
def Exhausted (best : MEOrderBook → Option LevelPtr) (stop : Price → Bool) (b : MEOrderBook) (leaves : Qty) : Prop :=
  leaves = 0 ∨ best b = none ∨ ∃ ℓ p, best b = some ℓ ∧ (b.ordersAtPricePool.get ℓ).firstMeOrder = some p ∧
    stop (b.orderPool.get p).price = true

theorem matchLoop_turn {best : MEOrderBook → Option LevelPtr} {stop : Price → Bool}
    {trade : Option OrderPtr → Qty → BookM Qty} {fuel : Nat} (h : Turn best stop b leaves p) :
    matchLoop best stop trade (fuel + 1) leaves b =
      (trade (some p) leaves >>= fun leaves => matchLoop best stop trade fuel leaves) b := by
  obtain ⟨ℓ, hbest, hlive, hfirst⟩ := h.first
  have hl : level (best b) b = .ok (b.ordersAtPricePool.get ℓ) b := level_ok.mpr ⟨ℓ, hbest, hlive, rfl, rfl⟩
  have ho : order (b.ordersAtPricePool.get ℓ).firstMeOrder b = .ok (b.orderPool.get p) b :=
    order_ok.mpr ⟨p, hfirst, h.checked, rfl, rfl⟩
  have hopen : ¬ (leaves = 0 ∨ best b = none) := by simp [h.unfilled, hbest]
  rw [matchLoop, bind_of_ok get_apply, if_neg hopen, bind_of_ok hl, bind_of_ok ho, if_neg (by simp [h.meets]), hfirst]

section Loop
variable {best : MEOrderBook → Option LevelPtr} {stop : Price → Bool} {trade : Option OrderPtr → Qty → BookM Qty}
  {fuel : Nat} {J : MEOrderBook → Qty → Prop}
  (turn : ∀ b leaves p b' leaves', J b leaves → Turn best stop b leaves p →
    trade (some p) leaves b = .ok leaves' b' → J b' leaves')
include turn

/-- What every turn keeps is kept by the loop. -/
theorem matchLoop_ok (hJ : J b leaves) (h : matchLoop best stop trade fuel leaves b = .ok leaves' b') :
    J b' leaves' ∧ Exhausted best stop b' leaves' := by
  induction fuel generalizing b leaves with
  | zero => cases h
  | succ fuel ih =>
    rw [matchLoop, bind_of_ok get_apply] at h
    by_cases hdone : leaves = 0 ∨ best b = none
    · rw [if_pos hdone] at h
      cases h
      exact ⟨hJ, hdone.imp_right .inl⟩
    · rw [if_neg hdone] at h
      rw [not_or] at hdone
      simp only [bind_eq_ok, level_ok, order_ok] at h
      obtain ⟨l, b, ⟨ℓ, hℓ, hlive, rfl, rfl⟩, o, b, ⟨p, hp, hplive, rfl, rfl⟩, h⟩ := h
      by_cases hstop : stop (b.orderPool.get p).price = true
      · rw [if_pos hstop] at h
        cases h
        exact ⟨hJ, .inr (.inr ⟨ℓ, p, hℓ, hp, hstop⟩)⟩
      · rw [if_neg hstop, hp] at h
        obtain ⟨leaves₁, b₁, ht, h⟩ := bind_eq_ok.mp h
        exact ih (turn _ _ _ _ _ hJ ⟨hdone.1, ⟨ℓ, hℓ, hlive, hp⟩, hplive, by simpa using hstop⟩ ht) h

/-- A loop that stops does so in a turn or between two turns. -/
theorem matchLoop_error (hJ : J b leaves) (h : matchLoop best stop trade fuel leaves b = .error e b') :
    ∃ b₁ leaves₁, J b₁ leaves₁ ∧
      ((b' = b₁ ∧ e.OfHeap) ∨ ∃ p, Turn best stop b₁ leaves₁ p ∧ trade (some p) leaves₁ b₁ = .error e b') := by
  induction fuel generalizing b leaves with
  | zero => cases h; exact ⟨_, _, hJ, .inl ⟨rfl, trivial⟩⟩
  | succ fuel ih =>
    rw [matchLoop, bind_of_ok get_apply] at h
    by_cases hdone : leaves = 0 ∨ best b = none
    · rw [if_pos hdone] at h; cases h
    · rw [if_neg hdone] at h
      rw [not_or] at hdone
      cases hl : level (best b) b with
      | error e₁ b₁ =>
        rw [bind_of_error hl] at h
        cases h
        have hf := (frame_level (R := Eq) (best b)).of_error hl
        exact ⟨_, _, hJ, .inl ⟨hf.symm, (raises_level _ _ _ _ hl).ofHeap⟩⟩
      | ok l b₁ =>
        rw [bind_of_ok hl] at h
        obtain ⟨ℓ, hℓ, hlive, rfl, rfl⟩ := level_ok.mp hl
        cases ho : order (b₁.ordersAtPricePool.get ℓ).firstMeOrder b₁ with
        | error e₁ b₂ =>
          rw [bind_of_error ho] at h
          cases h
          have hf := (frame_order (R := Eq) _).of_error ho
          exact ⟨_, _, hJ, .inl ⟨hf.symm, (raises_order _ _ _ _ ho).ofHeap⟩⟩
        | ok o b₂ =>
          rw [bind_of_ok ho] at h
          obtain ⟨p, hp, hplive, rfl, rfl⟩ := order_ok.mp ho
          by_cases hstop : stop (b₂.orderPool.get p).price = true
          · rw [if_pos hstop] at h; cases h
          · rw [if_neg hstop, hp] at h
            have ht : Turn best stop b₂ leaves p :=
              ⟨hdone.1, ⟨ℓ, hℓ, hlive, hp⟩, hplive, by simpa using hstop⟩
            cases hr : trade (some p) leaves b₂ with
            | error e₁ b₃ =>
              rw [bind_of_error hr] at h
              cases h
              exact ⟨_, _, hJ, .inr ⟨p, ht, hr⟩⟩
            | ok leaves₁ b₃ =>
              rw [bind_of_ok hr] at h
              exact ih (turn _ _ _ _ _ hJ ht hr) h

end Loop

/-! ## `add` and `cancel` -/

/-- The book after `add` answered ACCEPTED to the order `x`. -/
@[simps! -fullyApplied cidOidToOrder ordersAtPricePool bidsAtPrice asksAtPrice priceOrdersAtPriceHashMap orderPool marketUpdates
  strict]
def accepted (b : MEOrderBook) (x : Incoming) (qty : Qty) : MEOrderBook :=
  { b with
    nextMarketOrderId := b.nextMarketOrderId + 1
    issued := b.issued ++ [b.nextMarketOrderId] }.reportResponses
    [⟨some x.no,
      { type := .ACCEPTED, clientId := x.clientId, tickerId := x.tickerId, clientOrderId := x.clientOrderId,
        marketOrderId := x.id, side := x.side, price := x.price, execQty := 0, leavesQty := qty }⟩]

/-- The price test of the loop over the asks. -/
abbrev tooDear (price : Price) : Price → Bool := fun ask => price < ask

variable {clientId : ClientId} {clientOrderId : OrderId} {tickerId : TickerId} {side : Side} {price : Price} {qty : Qty}

theorem add_apply {x : Incoming} (hx : x = b.incoming clientId clientOrderId tickerId side price) :
    add clientId clientOrderId tickerId side price qty b =
      (x.matching qty >>= fun leaves => if leaves ≠ 0 then x.rest leaves else pure ()) (b.accepted x qty) := by
  subst hx
  unfold add generateNewMarketOrderId sendClientResponse
  rw [bind_of_ok get_apply, bind_of_ok (modifyGet_apply _), bind_of_ok (modify_apply _)]
  rfl

theorem matching_eq (x : Incoming) : x.matching qty =
    (matchAsks x.side x.price x.trade qty >>= fun leaves => matchBids x.side x.price x.trade leaves) := rfl

private theorem matchBids_none {x : Incoming} {y : Side} {z : Price} (hbids : b.bidsAtPrice = none) :
    matchBids y z x.trade leaves b = .ok leaves b := by
  unfold matchBids
  split_ifs
  · rw [turns, matchLoop, bind_of_ok get_apply, if_pos (.inr hbids)]; rfl
  · rfl

/-- An order to sell, and one for nothing, are not matched. -/
theorem matching_idle {x : Incoming} (hbids : b.bidsAtPrice = none) (h : x.side ≠ .BUY ∨ qty = 0) :
    x.matching qty b = .ok qty b := by
  have hasks : matchAsks x.side x.price x.trade qty b = .ok qty b := by
    unfold matchAsks
    split_ifs with hbuy
    · rw [turns, matchLoop, bind_of_ok get_apply, if_pos (.inl (h.resolve_left fun e => e hbuy))]; rfl
    · rfl
  rw [matching_eq, bind_of_ok hasks, matchBids_none hbids]

/-- An order that a single turn fills is full after it. -/
theorem matching_one {x : Incoming} (hside : x.side = .BUY) (ht : Turn asksAtPrice (tooDear x.price) b qty p)
    (hlt : qty < (b.orderPool.get p).qty) : x.matching qty b = .ok 0 (b.filled x p qty) := by
  have hmin : min qty (b.orderPool.get p).qty = qty := if_pos (UInt32.le_of_lt hlt)
  have hopen : (b.orderPool.get p).qty - qty ≠ 0 := fun h => by
    have hsub := UInt32.toNat_sub_of_le _ _ (UInt32.le_of_lt hlt)
    have hlt' := UInt32.lt_iff_toNat_lt.mp hlt
    rw [h, UInt32.toNat_zero] at hsub
    omega
  have htrade : x.trade (some p) qty b = .ok 0 (b.filled x p qty) := by
    rw [trade_apply x ht.checked, hmin, if_neg hopen, UInt32.sub_self]
  have hasks : matchAsks x.side x.price x.trade qty b = .ok 0 (b.filled x p qty) := by
    rw [matchAsks, if_pos hside, turns, matchLoop_turn ht, bind_of_ok htrade, ME_MAX_ORDER_IDS, matchLoop,
      bind_of_ok get_apply, if_pos (.inl rfl)]
    rfl
  rw [matching_eq, bind_of_ok hasks, matchBids, if_neg (by rw [hside]; exact Side.buy_ne_sell)]
  rfl

theorem add_one {x : Incoming} (hx : x = b.incoming clientId clientOrderId tickerId .BUY price)
    (ht : Turn asksAtPrice (tooDear price) b qty p) (hlt : qty < (b.orderPool.get p).qty) :
    add clientId clientOrderId tickerId .BUY price qty b = .ok () ((b.accepted x qty).filled x p qty) := by
  have hprice : x.price = price := by rw [hx]; rfl
  have hm : x.matching qty (b.accepted x qty) = .ok 0 ((b.accepted x qty).filled x p qty) := by
    refine matching_one (by rw [hx]; rfl) ?_ hlt
    rw [hprice]
    exact ⟨ht.unfilled, ht.first, ht.checked, ht.meets⟩
  rw [add_apply hx, bind_of_ok hm]
  rfl

section Matching
variable {J : MEOrderBook → Qty → Prop} {x : Incoming} (hbids : b.bidsAtPrice = none)
  (turn : ∀ b leaves p b' leaves', J b leaves → x.side = .BUY → Turn asksAtPrice (tooDear x.price) b leaves p →
    x.trade (some p) leaves b = .ok leaves' b' → J b' leaves')
  (hJ : J b qty)
include hbids turn hJ

/-- Without bids only an order to buy is matched, and the turns of its loop keep what
each of them keeps. -/
theorem matching_ok (h : x.matching qty b = .ok leaves b') :
    J b' leaves ∧ (x.side = .BUY → Exhausted asksAtPrice (tooDear x.price) b' leaves) := by
  rw [matching_eq] at h
  obtain ⟨leaves', b₁, hasks, h⟩ := bind_eq_ok.mp h
  by_cases hbuy : x.side = .BUY
  · rw [matchAsks, if_pos hbuy] at hasks
    rw [matchBids, if_neg (by rw [hbuy]; exact Side.buy_ne_sell)] at h
    cases h
    obtain ⟨hJ', hex⟩ := matchLoop_ok (fun b l p b' l' hj => turn b l p b' l' hj hbuy) hJ hasks
    exact ⟨hJ', fun _ => hex⟩
  · rw [matchAsks, if_neg hbuy] at hasks
    cases hasks
    rw [matchBids_none hbids] at h
    cases h
    exact ⟨hJ, fun e => absurd e hbuy⟩

theorem matching_error (h : x.matching qty b = .error e b') :
    ∃ b₁ leaves, J b₁ leaves ∧ ((b' = b₁ ∧ e.OfHeap) ∨
      ∃ p, x.side = .BUY ∧ Turn asksAtPrice (tooDear x.price) b₁ leaves p ∧ x.trade (some p) leaves b₁ = .error e b') := by
  rw [matching_eq] at h
  by_cases hbuy : x.side = .BUY
  · have hnone : ∀ leaves, matchBids x.side x.price x.trade leaves = pure leaves := fun leaves => by
      rw [matchBids, if_neg (by rw [hbuy]; exact Side.buy_ne_sell)]
    simp only [hnone, bind_pure] at h
    rw [matchAsks, if_pos hbuy] at h
    obtain ⟨b₂, leaves, hJ', hcase⟩ := matchLoop_error (fun b l p b' l' hj => turn b l p b' l' hj hbuy) hJ h
    exact ⟨b₂, leaves, hJ', hcase.imp_right fun ⟨p, ht, hr⟩ => ⟨p, hbuy, ht, hr⟩⟩
  · have hnone : matchAsks x.side x.price x.trade qty = pure qty := by rw [matchAsks, if_neg hbuy]
    rw [hnone, pure_bind, matchBids_none hbids] at h
    cases h

end Matching

/-- An `add` that returns: the ACCEPTED response, the matching, and the remainder that rests. -/
theorem add_ok {x : Incoming} (hx : x = b.incoming clientId clientOrderId tickerId side price)
    (h : add clientId clientOrderId tickerId side price qty b = .ok u b') :
    ∃ b₁ leaves, x.matching qty (b.accepted x qty) = .ok leaves b₁ ∧
      ((leaves = 0 ∧ b' = b₁) ∨ (leaves ≠ 0 ∧ x.rest leaves b₁ = .ok u b')) := by
  rw [add_apply hx] at h
  obtain ⟨leaves, b₁, hm, h⟩ := bind_eq_ok.mp h
  refine ⟨b₁, leaves, hm, ?_⟩
  by_cases h0 : leaves = 0
  · subst h0; cases h; exact .inl ⟨rfl, rfl⟩
  · rw [if_pos h0] at h; exact .inr ⟨h0, h⟩

/-- An `add` that stops: in the matching, or while the remainder comes to rest. -/
theorem add_error {x : Incoming} (hx : x = b.incoming clientId clientOrderId tickerId side price)
    (h : add clientId clientOrderId tickerId side price qty b = .error e b') :
    x.matching qty (b.accepted x qty) = .error e b' ∨
      ∃ leaves b₁, x.matching qty (b.accepted x qty) = .ok leaves b₁ ∧ x.rest leaves b₁ = .error e b' := by
  rw [add_apply hx] at h
  cases hm : x.matching qty (b.accepted x qty) with
  | error e₁ b₁ =>
    rw [bind_of_error hm] at h
    cases h
    exact .inl rfl
  | ok leaves b₁ =>
    rw [bind_of_ok hm] at h
    split_ifs at h
    · exact .inr ⟨leaves, b₁, rfl, h⟩
    · cases h

/-- The rule for the last state of an `add`, whether it returned or stopped. -/
theorem add_final {J : MEOrderBook → Qty → Prop} {K : MEOrderBook → Prop} {x : Incoming}
    (hx : x = b.incoming clientId clientOrderId tickerId side price) (hbids : b.bidsAtPrice = none)
    (hJ : J (b.accepted x qty) qty)
    (turn : ∀ b leaves p b' leaves', J b leaves → x.side = .BUY → Turn asksAtPrice (tooDear x.price) b leaves p →
      x.trade (some p) leaves b = .ok leaves' b' → J b' leaves')
    (stop : ∀ b leaves p e b', J b leaves → x.side = .BUY → Turn asksAtPrice (tooDear x.price) b leaves p →
      x.trade (some p) leaves b = .error e b' → K b')
    (here : ∀ b leaves, J b leaves → K b) (rest : ∀ b leaves, J b leaves → K (final (x.rest leaves b))) :
    K (final (add clientId clientOrderId tickerId side price qty b)) := by
  have hbids' : (b.accepted x qty).bidsAtPrice = none := hbids
  rw [add_apply hx]
  cases hm : x.matching qty (b.accepted x qty) with
  | error e b₁ =>
    rw [bind_of_error hm, final_error]
    obtain ⟨b₂, leaves, hj, ⟨rfl, -⟩ | ⟨p, hs, ht, herr⟩⟩ := matching_error hbids' turn hJ hm
    · exact here _ _ hj
    · exact stop _ _ _ _ _ hj hs ht herr
  | ok leaves b₁ =>
    rw [bind_of_ok hm]
    have hj := (matching_ok hbids' turn hJ hm).1
    split_ifs
    · exact rest _ _ hj
    · exact here _ _ hj

/-- The book after a CANCEL of no order. -/
def rejected (b : MEOrderBook) (clientId : ClientId) (orderId : OrderId) (tickerId : TickerId) : MEOrderBook :=
  b.reportResponses [⟨none,
    { type := .CANCEL_REJECTED, clientId, tickerId, clientOrderId := orderId, marketOrderId := orderIdInvalid,
      side := .INVALID, price := priceInvalid, execQty := qtyInvalid, leavesQty := qtyInvalid }⟩]

/-- The book after the messages about the cancelled order `o`. -/
def canceled (b : MEOrderBook) (clientId : ClientId) (orderId : OrderId) (tickerId : TickerId) (o : MEOrder) :
    MEOrderBook :=
  (b.reportUpdates [⟨o.addNo,
    { type := .CANCEL, orderId := o.marketOrderId, tickerId, side := o.side, price := o.price, qty := 0,
      priority := o.priority }⟩]).reportResponses [⟨o.addNo,
    { type := .CANCELED, clientId, tickerId, clientOrderId := orderId, marketOrderId := o.marketOrderId,
      side := o.side, price := o.price, execQty := qtyInvalid, leavesQty := o.qty }⟩]

variable {orderId : OrderId}

theorem exchangeOrder_ok {r : Option OrderPtr} : exchangeOrder clientId orderId b = .ok r b' ↔
    b' = b ∧ ((¬ clientId.toNat < ME_MAX_NUM_CLIENTS ∧ r = none) ∨ (clientId.toNat < ME_MAX_NUM_CLIENTS ∧
      orderId.toNat < ME_MAX_ORDER_IDS ∧ r = b.cidOidToOrder clientId orderId)) := by
  unfold exchangeOrder
  split_ifs with hc hk
  · rw [bind_of_ok get_apply]
    simp [hc, hk, and_comm, eq_comm]
  · simp [hc, hk]
  · simp [hc, and_comm, eq_comm]

/-- A `cancel` that returns rejected the request or removed the order it found. -/
theorem cancel_ok (h : cancel clientId orderId tickerId b = .ok u b') :
    ((¬ clientId.toNat < ME_MAX_NUM_CLIENTS ∨ b.cidOidToOrder clientId orderId = none) ∧
      b' = b.rejected clientId orderId tickerId) ∨
    (clientId.toNat < ME_MAX_NUM_CLIENTS ∧ orderId.toNat < ME_MAX_ORDER_IDS ∧
      ∃ p b₁, b.cidOidToOrder clientId orderId = some p ∧ removeOrder (some p) b = .ok () b₁ ∧
        b' = b₁.canceled clientId orderId tickerId (b.orderPool.get p)) := by
  unfold cancel at h
  obtain ⟨r, b₁, he, hr⟩ := bind_eq_ok.mp h
  obtain ⟨rfl, hf⟩ := exchangeOrder_ok.mp he
  by_cases hn : r = none
  · rw [if_pos hn] at hr
    cases hr
    refine .inl ⟨hf.imp And.left fun e => e.2.2.symm.trans hn, rfl⟩
  · rw [if_neg hn] at hr
    obtain ⟨hc, hk, rfl⟩ := hf.resolve_left fun e => hn e.2
    obtain ⟨o, b₂, ho, hr⟩ := bind_eq_ok.mp hr
    obtain ⟨p, hp, -, rfl, rfl⟩ := order_ok.mp ho
    obtain ⟨_, b₃, hrem, hr⟩ := bind_eq_ok.mp hr
    rw [hp] at hrem
    refine .inr ⟨hc, hk, p, b₃, hp, hrem, ?_⟩
    rw [sendMarketUpdate, sendClientResponse, bind_of_ok (modify_apply _)] at hr
    cases hr
    rfl

/-- A `cancel` of an order that is not known is answered and changes nothing else. -/
theorem cancel_of_unknown (h : clientId.toNat < ME_MAX_NUM_CLIENTS →
      orderId.toNat < ME_MAX_ORDER_IDS ∧ b.cidOidToOrder clientId orderId = none) :
    cancel clientId orderId tickerId b = .ok () (b.rejected clientId orderId tickerId) := by
  have he : exchangeOrder clientId orderId b = .ok none b := by
    refine exchangeOrder_ok.mpr ⟨rfl, ?_⟩
    by_cases hc : clientId.toNat < ME_MAX_NUM_CLIENTS
    · exact .inr ⟨hc, (h hc).1, (h hc).2.symm⟩
    · exact .inl ⟨hc, rfl⟩
  rw [cancel, bind_of_ok he, if_pos rfl]
  rfl

/-- A `cancel` of an indexed order returns if the order can be removed. -/
theorem cancel_of_removes (hc : clientId.toNat < ME_MAX_NUM_CLIENTS) (hk : orderId.toNat < ME_MAX_ORDER_IDS)
    (hp : b.cidOidToOrder clientId orderId = some p) (hlive : b.orderPool.Live p)
    (hr : removeOrder (some p) b = .ok () b') :
    cancel clientId orderId tickerId b = .ok () (b'.canceled clientId orderId tickerId (b.orderPool.get p)) := by
  have he : exchangeOrder clientId orderId b = .ok (some p) b :=
    exchangeOrder_ok.mpr ⟨rfl, .inr ⟨hc, hk, hp.symm⟩⟩
  rw [cancel, bind_of_ok he, if_neg (by simp), bind_of_ok (order_of_live hlive), bind_of_ok hr, sendMarketUpdate,
    sendClientResponse, bind_of_ok (modify_apply _)]
  rfl

/-- A `cancel` that stops has sent nothing. -/
theorem cancel_error (h : cancel clientId orderId tickerId b = .error e b') : ledger b' = ledger b := by
  unfold cancel at h
  cases he : exchangeOrder clientId orderId b with
  | error e₁ b₁ =>
    rw [bind_of_error he] at h
    cases h
    have hf : Frame (Fixes ledger) (exchangeOrder clientId orderId) :=
      .ite (.ite (fun _ => rfl) (.throw _)) (.pure _)
    exact hf.of_error he
  | ok r b₁ =>
    rw [bind_of_ok he] at h
    obtain ⟨rfl, -⟩ := exchangeOrder_ok.mp he
    by_cases hn : r = none
    · rw [if_pos hn] at h; cases h
    · rw [if_neg hn] at h
      cases ho : order r b₁ with
      | error e₁ b₂ =>
        rw [bind_of_error ho] at h
        cases h
        exact (frame_order (R := Fixes ledger) r).of_error ho
      | ok o b₂ =>
        rw [bind_of_ok ho] at h
        have hf := (frame_order (R := Fixes ledger) r).of_ok ho
        cases hr : removeOrder r b₂ with
        | error e₁ b₃ =>
          rw [bind_of_error hr] at h
          cases h
          exact ((quiet_removeOrder r).of_error hr).trans hf
        | ok _ b₃ => rw [bind_of_ok hr] at h; cases h

end TradingEcosystem.MEOrderBook
