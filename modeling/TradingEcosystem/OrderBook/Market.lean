import TradingEcosystem.OrderBook.Accounting
import TradingEcosystem.Library.PriorityLine

/-! What the order book is for, without a pointer, a pool or a hash map: the resting orders in the
order of their arrival, an incoming order served from the line of the asks, and a cancel that finds
an order by the ids it was last registered under. -/
namespace TradingEcosystem
open PriceTime

/-- Which order came first. -/
def MEOrder.arrival (o : MEOrder) : Nat := o.addNo.getD 0

/-- What an order offers to those who may trade with it. -/
def MEOrder.offer (o : MEOrder) : Offer MEOrder Price := ⟨o, o.price, o.qty.toNat⟩

/-- `index` finds an order by the number of the `add` that built it. -/
structure Market where
  orders : List MEOrder := []
  index : ClientId → OrderId → Option Nat := fun _ _ => none
  adds : Nat := 0
  responses : List (Report MEClientResponse) := []
  updates : List (Report MEMarketUpdate) := []

namespace Market
open MEOrderBook

def asks (m : Market) : List MEOrder := m.orders.filter (·.side = .SELL)

/-- The asks in price-time priority. -/
def queue (m : Market) : List MEOrder := line MEOrder.price MEOrder.arrival m.asks

def incoming (m : Market) (clientId : ClientId) (clientOrderId : OrderId) (tickerId : TickerId) (side : Side)
    (price : Price) : Incoming :=
  ⟨m.adds, clientId, clientOrderId, tickerId, side, price, UInt64.ofNat (m.adds + 1)⟩

def register (m : Market) (clientId : ClientId) (clientOrderId : OrderId) (no : Option Nat) : Market :=
  { m with index := fun c k => if c = clientId ∧ k = clientOrderId then no else m.index c k }

/-- The order leaves, and with it what is registered under its ids. -/
def remove (m : Market) (o : MEOrder) : Market :=
  { m with orders := m.orders.filter (·.addNo ≠ o.addNo) }.register o.clientId o.clientOrderId none

def reduce (m : Market) (o : MEOrder) (exec : Qty) : Market :=
  { m with orders := m.orders.map fun r => if r.addNo = o.addNo then { r with qty := r.qty - exec } else r }

def tell (m : Market) (responses : List (Report MEClientResponse)) (updates : List (Report MEMarketUpdate)) : Market :=
  { m with responses := m.responses ++ responses, updates := m.updates ++ updates }

/-- A fill of the resting order `f.resting`. -/
def trade (x : Incoming) (m : Market) (f : Fill) : Market :=
  let m := if f.resting.qty - f.exec = 0 then m.remove f.resting else m.reduce f.resting f.exec
  m.tell (f.responses x) (f.updates x)

def fillOf (t : Take MEOrder Price) : Fill := ⟨t.order, .ofNat t.qty, .ofNat t.leaves⟩

/-- The order `x` goes along a line of offers; what it has left, and the market then. -/
def serve (x : Incoming) (os : List MEOrder) (leaves : Nat) (m : Market) : Market × Nat :=
  let out := walk x.price (os.map MEOrder.offer) leaves
  (out.takes.foldl (fun m t => m.trade x (fillOf t)) m, out.leaves)

/-- Behind the last order of its side and price. -/
def priorityAt (m : Market) (side : Side) (price : Price) : Priority :=
  match (m.orders.filter fun o => o.side = side ∧ o.price = price).getLast? with
  | none => 1
  | some o => o.priority + 1

def remainder (m : Market) (x : Incoming) (leaves : Qty) : MEOrder :=
  { tickerId := x.tickerId, clientId := x.clientId, clientOrderId := x.clientOrderId, marketOrderId := x.id, side := x.side,
    price := x.price, qty := leaves, priority := m.priorityAt x.side x.price, addNo := some x.no }

/-- The remainder of `x` comes to rest as the last arrival. -/
def rest (m : Market) (x : Incoming) (leaves : Qty) : Market :=
  let o := m.remainder x leaves
  ({ m with orders := m.orders ++ [o] }.register x.clientId x.clientOrderId (some x.no)).tell []
    [⟨some x.no,
      { type := .ADD, orderId := x.id, tickerId := x.tickerId, side := x.side, price := x.price, qty := leaves,
        priority := o.priority }⟩]

def accept (m : Market) (x : Incoming) (qty : Qty) : Market :=
  { m with adds := m.adds + 1 }.tell
    [⟨some x.no,
      { type := .ACCEPTED, clientId := x.clientId, tickerId := x.tickerId, clientOrderId := x.clientOrderId,
        marketOrderId := x.id, side := x.side, price := x.price, execQty := 0, leavesQty := qty }⟩] []

/-- An order to buy is served from the line of the asks, any other order from nothing. -/
def matched (m : Market) (x : Incoming) (qty : Qty) : Market × Nat :=
  serve x (if x.side = .BUY then m.queue else []) qty.toNat (m.accept x qty)

def add (m : Market) (x : Incoming) (qty : Qty) : Market :=
  let out := m.matched x qty
  if out.2 = 0 then out.1 else out.1.rest x (.ofNat out.2)

def cancel (m : Market) (clientId : ClientId) (orderId : OrderId) (tickerId : TickerId) : Market :=
  match (m.index clientId orderId).bind fun no => m.orders.find? (·.addNo = some no) with
  | none => m.tell [⟨none,
      { type := .CANCEL_REJECTED, clientId, tickerId, clientOrderId := orderId, marketOrderId := orderIdInvalid,
        side := .INVALID, price := priceInvalid, execQty := qtyInvalid, leavesQty := qtyInvalid }⟩] []
  | some o => (m.remove o).tell
      [⟨o.addNo,
        { type := .CANCELED, clientId, tickerId, clientOrderId := orderId, marketOrderId := o.marketOrderId,
          side := o.side, price := o.price, execQty := qtyInvalid, leavesQty := o.qty }⟩]
      [⟨o.addNo,
        { type := .CANCEL, orderId := o.marketOrderId, tickerId, side := o.side, price := o.price, qty := 0,
          priority := o.priority }⟩]

def step (m : Market) : Request → Market
  | .add clientId clientOrderId tickerId side price qty =>
    m.add (m.incoming clientId clientOrderId tickerId side price) qty
  | .cancel clientId orderId tickerId => m.cancel clientId orderId tickerId

def after (rs : List Request) : Market := rs.foldl step {}

/-- The request leaves nothing over, or a remainder to buy or to sell that shares its price modulo
the number of price levels with orders of its own side and price only. -/
def Apart (m : Market) : Request → Prop
  | .add clientId clientOrderId tickerId side price qty =>
    let out := m.matched (m.incoming clientId clientOrderId tickerId side price) qty
    out.2 = 0 ∨ ((side = .BUY ∨ side = .SELL) ∧ ∀ o ∈ out.1.orders, priceToIndex o.price = priceToIndex price →
      o.side = side ∧ o.price = price)
  | .cancel .. => True

instance (m : Market) (r : Request) : Decidable (m.Apart r) :=
  match r with
  | .add .. => inferInstanceAs (Decidable (_ ∨ _))
  | .cancel .. => inferInstanceAs (Decidable True)

/-- Every request of a list is apart from what the market holds when it comes. -/
def AllApart : Market → List Request → Prop
  | _, [] => True
  | m, r :: rs => m.Apart r ∧ (m.step r).AllApart rs

instance decidableAllApart (m : Market) : ∀ rs, Decidable (m.AllApart rs)
  | [] => inferInstanceAs (Decidable True)
  | r :: rs => have := decidableAllApart (m.step r) rs; inferInstanceAs (Decidable (_ ∧ _))

theorem allApart_append {m : Market} {rs : List Request} {r : Request} :
    m.AllApart (rs ++ [r]) ↔ m.AllApart rs ∧ (rs.foldl step m).Apart r := by
  induction rs generalizing m with
  | nil => simp [AllApart]
  | cons a rs ih => rw [List.cons_append, AllApart, AllApart, ih, List.foldl_cons, and_assoc]

/-! ## What the walk does to the market -/

variable {m : Market} {x : Incoming} {o : MEOrder} {os : List MEOrder} {leaves : Nat}

theorem serve_stop (h : os = [] ∨ leaves = 0 ∨ ∃ o os', os = o :: os' ∧ x.price < o.price) : serve x os leaves m = (m, leaves) := by
  rcases h with rfl | rfl | ⟨o, os', rfl, hdear⟩
  · rfl
  · rw [serve, walk_zero]
    rfl
  · rw [serve, List.map_cons, walk_stop (.inr hdear)]
    rfl

theorem serve_part (h0 : leaves ≠ 0) (hprice : ¬ x.price < o.price) (hlt : leaves < o.qty.toNat) :
    serve x (o :: os) leaves m = (m.trade x ⟨o, .ofNat leaves, 0⟩, 0) := by
  rw [serve, List.map_cons, walk_part h0 hprice hlt]
  rfl

theorem serve_all (h0 : leaves ≠ 0) (hprice : ¬ x.price < o.price) (hle : o.qty.toNat ≤ leaves) :
    serve x (o :: os) leaves m = serve x os (leaves - o.qty.toNat) (m.trade x ⟨o, o.qty, .ofNat (leaves - o.qty.toNat)⟩) := by
  rw [serve, List.map_cons, walk_all h0 hprice hle]
  simp only [List.foldl_cons, fillOf, MEOrder.offer, UInt32.ofNat_toNat]
  rfl

theorem trade_open {f : Fill} (h : f.resting.qty - f.exec ≠ 0) :
    m.trade x f = (m.reduce f.resting f.exec).tell (f.responses x) (f.updates x) := by
  rw [trade, if_neg h]

theorem trade_full {f : Fill} (h : f.resting.qty - f.exec = 0) :
    m.trade x f = (m.remove f.resting).tell (f.responses x) (f.updates x) := by
  rw [trade, if_pos h]

/-- An order that leaves takes with it what was changed in it. -/
theorem remove_reduce {o' : MEOrder} {exec : Qty} {responses : List (Report MEClientResponse)}
    {updates : List (Report MEMarketUpdate)}
    (h : o'.addNo = o.addNo ∧ o'.clientId = o.clientId ∧ o'.clientOrderId = o.clientOrderId) :
    ((m.reduce o exec).tell responses updates).remove o' = (m.remove o).tell responses updates := by
  have horders : ((m.reduce o exec).orders.filter fun r => r.addNo ≠ o'.addNo) = m.orders.filter (·.addNo ≠ o.addNo) := by
    rw [reduce, List.filter_map, List.filter_congr (q := fun r => r.addNo ≠ o.addNo) fun r _ => ?_]
    · refine (List.map_congr_left fun r hr => ?_).trans (List.map_id _)
      rw [List.mem_filter, decide_eq_true_eq] at hr
      exact if_neg hr.2
    · rw [Function.comp_apply, h.1]
      split_ifs <;> rfl
  simp only [remove, tell, register, horders, h.2.1, h.2.2]
  rfl

end Market
end TradingEcosystem
