import TradingEcosystem.OrderBook.Rules

/-! The fills of one `add`, as the messages about them tell: how the quantities of the incoming
order, of the resting orders and of the messages add up, in any state of the book. -/
namespace TradingEcosystem.MEOrderBook
open Program Runs
variable {b b' b₀ : MEOrderBook} {x : Incoming} {p : OrderPtr} {leaves leaves' qty : Qty} {u : Unit}
  {clientId : ClientId} {clientOrderId : OrderId} {tickerId : TickerId} {side : Side} {price : Price}

/-- A fill of an incoming order: the resting order as it stood before, what was traded, and what
the incoming order had left after it. -/
structure Fill where
  resting : MEOrder
  exec : Qty
  leaves : Qty

namespace Fill

def responses (x : Incoming) (f : Fill) : List (Report MEClientResponse) :=
  [⟨some x.no,
    { type := .FILLED, clientId := x.clientId, tickerId := x.tickerId, clientOrderId := x.clientOrderId,
      marketOrderId := x.fillId, side := x.side, price := f.resting.price, execQty := f.exec, leavesQty := f.leaves }⟩,
   ⟨f.resting.addNo,
    { type := .FILLED, clientId := f.resting.clientId, tickerId := x.tickerId, clientOrderId := f.resting.clientOrderId,
      marketOrderId := f.resting.marketOrderId, side := f.resting.side, price := f.resting.price, execQty := f.exec,
      leavesQty := f.resting.qty - f.exec }⟩]

def updates (x : Incoming) (f : Fill) : List (Report MEMarketUpdate) :=
  [⟨none,
    { type := .TRADE, orderId := orderIdInvalid, tickerId := x.tickerId, side := x.side, price := f.resting.price,
      qty := f.exec, priority := priorityInvalid }⟩,
   ⟨f.resting.addNo,
      if f.resting.qty - f.exec = 0 then
        { type := .CANCEL, orderId := f.resting.marketOrderId, tickerId := x.tickerId, side := f.resting.side,
          price := f.resting.price, qty := f.resting.qty, priority := priorityInvalid }
      else
        { type := .MODIFY, orderId := f.resting.marketOrderId, tickerId := x.tickerId, side := f.resting.side,
          price := f.resting.price, qty := f.resting.qty - f.exec, priority := f.resting.priority }⟩]

end Fill

/-- A price that the incoming order trades at. -/
def Within (side : Side) (limit price : Price) : Prop :=
  (side = .BUY → price ≤ limit) ∧ (side = .SELL → limit ≤ price)

/-- The turns of a matching loop of `x` from the book `b₀` on, with the fills they made. -/
inductive Fills (best : MEOrderBook → Option LevelPtr) (stop : Price → Bool) (x : Incoming) (b₀ : MEOrderBook) (qty : Qty) :
    List Fill → MEOrderBook → Qty → Prop where
  | none : Fills best stop x b₀ qty [] b₀ qty
  | fill {fills : List Fill} {b b' : MEOrderBook} {leaves leaves' : Qty} {p : OrderPtr}
      (before : Fills best stop x b₀ qty fills b leaves) (turn : Turn best stop b leaves p)
      (trade : x.trade (some p) leaves b = .ok leaves' b') :
      Fills best stop x b₀ qty (fills ++ [⟨b.orderPool.get p, b.fillQty p leaves, leaves'⟩]) b' leaves'

/-! ## What one turn tells -/

/-- A turn tells of its fill, and of nothing else. -/
theorem trade_messages (h : x.trade (some p) leaves b = .ok leaves' b') :
    b'.clientResponses = b.clientResponses ++ Fill.responses x ⟨b.orderPool.get p, b.fillQty p leaves, leaves'⟩ ∧
    b'.marketUpdates = b.marketUpdates ++ Fill.updates x ⟨b.orderPool.get p, b.fillQty p leaves, leaves'⟩ := by
  obtain ⟨rfl, ⟨-, rfl⟩ | ⟨-, hrem⟩⟩ := trade_ok x h
  · exact ⟨rfl, rfl⟩
  · have hj := (quiet_removeOrder _).journal.of_ok hrem
    simp only [Fixes, journal, Prod.mk.injEq] at hj
    rw [hj.1, hj.2.1]
    exact ⟨rfl, rfl⟩

/-- What a turn takes from the incoming order it had. -/
theorem trade_leaves (h : x.trade (some p) leaves b = .ok leaves' b') :
    leaves'.toNat + (b.fillQty p leaves).toNat = leaves.toNat := by
  obtain ⟨rfl, -⟩ := trade_ok x h
  have hmin := fillQty_toNat b p leaves
  change (leaves - b.fillQty p leaves).toNat + _ = _
  rw [(sub_fillQty_toNat b p leaves).1]
  omega

/-- The remainder that comes to rest is announced by one ADD. -/
theorem rest_messages (h : x.rest leaves b = .ok u b') : b'.clientResponses = b.clientResponses ∧ ∃ priority,
    b'.marketUpdates = b.marketUpdates ++ [⟨some x.no,
      { type := .ADD, orderId := x.id, tickerId := x.tickerId, side := x.side, price := x.price, qty := leaves, priority }⟩] := by
  obtain ⟨priority, b₁, hp, h⟩ := bind_eq_ok.mp h
  obtain ⟨p, b₂, ha, h⟩ := bind_eq_ok.mp h
  obtain ⟨_, b₃, hadd, h⟩ := bind_eq_ok.mp h
  have hj₁ := (quiet_getNextPriority _).journal.of_ok hp
  have hj₂ := (journal_allocateOrder _).of_ok ha
  have hj₃ := (quiet_addOrder _).journal.of_ok hadd
  have hj : journal b₃ = journal b := hj₃.trans (hj₂.trans hj₁)
  simp only [journal, Prod.mk.injEq] at hj
  cases h
  exact ⟨hj.1, priority, by rw [reportUpdates_marketUpdates, hj.2.1]⟩

/-! ## What the fills tell together -/

section Fills
variable {best : MEOrderBook → Option LevelPtr} {stop : Price → Bool} {fills : List Fill}

theorem Fills.messages (h : Fills best stop x b₀ qty fills b leaves) :
    b.clientResponses = b₀.clientResponses ++ fills.flatMap (Fill.responses x) ∧
    b.marketUpdates = b₀.marketUpdates ++ fills.flatMap (Fill.updates x) := by
  induction h with
  | none => simp
  | fill before turn trade ih =>
    obtain ⟨hr, hu⟩ := trade_messages trade
    rw [hr, hu, ih.1, ih.2]
    simp

/-- What was traded. -/
def executed (fills : List Fill) : Nat := (fills.map fun f => f.exec.toNat).sum

theorem Fills.conserved (h : Fills best stop x b₀ qty fills b leaves) : leaves.toNat + executed fills = qty.toNat := by
  induction h with
  | none => simp [executed]
  | fill before turn trade ih =>
    have hturn := trade_leaves trade
    simp only [executed, List.map_append, List.map_singleton, List.sum_append, List.sum_singleton] at ih ⊢
    omega

/-- After each fill the incoming order has left what was not traded up to then. -/
theorem Fills.conserved_at (h : Fills best stop x b₀ qty fills b leaves) :
    ∀ i f, fills[i]? = some f → f.leaves.toNat + executed (fills.take (i + 1)) = qty.toNat := by
  induction h with
  | none => simp
  | fill before turn trade ih =>
    intro i f hf
    have htotal := (before.fill turn trade).conserved
    rename_i fills' _ _ _ _ _
    rcases Nat.lt_trichotomy i fills'.length with hlt | heq | hgt
    · rw [List.getElem?_append_left hlt] at hf
      rw [List.take_append_of_le_length hlt]
      exact ih i f hf
    · subst heq
      rw [List.getElem?_append_right le_rfl, Nat.sub_self] at hf
      cases hf
      rwa [List.take_of_length_le (by simp)]
    · rw [List.getElem?_eq_none (by simp; omega)] at hf
      cases hf

/-- No fill takes more than the resting order has, or trades at a price that stops the loop. -/
theorem Fills.fair (h : Fills best stop x b₀ qty fills b leaves) :
    ∀ f ∈ fills, f.exec.toNat ≤ f.resting.qty.toNat ∧ stop f.resting.price = false := by
  induction h with
  | none => simp
  | fill before turn trade ih =>
    intro f hf
    rcases List.mem_append.mp hf with hf | hf
    · exact ih f hf
    · rw [List.mem_singleton.mp hf]
      refine ⟨?_, turn.meets⟩
      rw [fillQty_toNat]
      exact min_le_right _ _

/-- The rule for a loop: its turns are fills. -/
theorem Fills.loop {fuel : Nat} (h : Fills best stop x b₀ qty fills b leaves)
    (hl : matchLoop best stop x.trade fuel leaves b = .ok leaves' b') : ∃ fills', Fills best stop x b₀ qty fills' b' leaves' :=
  (matchLoop_ok (J := fun b leaves => ∃ fills, Fills best stop x b₀ qty fills b leaves)
    (fun _ _ _ _ _ ⟨_, before⟩ turn trade => ⟨_, before.fill turn trade⟩) ⟨fills, h⟩ hl).1

end Fills

/-- The level pointer of the side that an order is matched against, and the price test there. -/
def Incoming.best (x : Incoming) : MEOrderBook → Option LevelPtr := if x.side = .BUY then asksAtPrice else bidsAtPrice
def Incoming.stop (x : Incoming) (price : Price) : Bool := if x.side = .BUY then x.price < price else x.price > price

/-- The matching of an order to buy or to sell that returns is a sequence of fills. -/
theorem fills_of_matching (hside : x.side = .BUY ∨ x.side = .SELL) (h : x.matching qty b = .ok leaves b') :
    ∃ fills, Fills x.best x.stop x b qty fills b' leaves := by
  rw [matching_eq] at h
  obtain ⟨leaves₁, b₁, hasks, h⟩ := bind_eq_ok.mp h
  rcases hside with hbuy | hsell
  · have hstop : x.stop = tooDear x.price := by
      funext ask
      rw [Incoming.stop, if_pos hbuy]
    rw [matchBids, if_neg (by rw [hbuy]; exact Side.buy_ne_sell)] at h
    cases h
    rw [matchAsks, if_pos hbuy] at hasks
    rw [hstop, Incoming.best, if_pos hbuy]
    exact Fills.none.loop hasks
  · have hbuy : x.side ≠ .BUY := by
      rw [hsell]
      exact Side.buy_ne_sell.symm
    have hstop : x.stop = fun bid => decide (x.price > bid) := by
      funext bid
      rw [Incoming.stop, if_neg hbuy]
    rw [matchAsks, if_neg hbuy] at hasks
    cases hasks
    rw [matchBids, if_pos hsell] at h
    rw [hstop, Incoming.best, if_neg hbuy]
    exact Fills.none.loop h

theorem within_of_stop (h : x.stop price = false) : Within x.side x.price price := by
  unfold Incoming.stop at h
  constructor
  · intro hbuy
    simpa [hbuy, Int64.not_lt] using h
  · intro hsell
    have hbuy : x.side ≠ .BUY := by
      rw [hsell]
      exact Side.buy_ne_sell.symm
    simpa [hbuy, Int64.not_lt] using h

/-- An `add` that returns tells, in this order, that the order was accepted, of each of its fills
to both parties, and in the end of the remainder if there is one. The quantities told add up to the
quantity of the order. No state of the book is excluded. -/
theorem add_accounts (hside : side = .BUY ∨ side = .SELL) (hx : x = b.incoming clientId clientOrderId tickerId side price)
    (h : add clientId clientOrderId tickerId side price qty b = .ok u b') :
    ∃ fills b₁ leaves rested, Fills x.best x.stop x (b.accepted x qty) qty fills b₁ leaves ∧
      b'.clientResponses = b.clientResponses ++
        ⟨some x.no,
          { type := .ACCEPTED, clientId, tickerId, clientOrderId, marketOrderId := x.id, side, price, execQty := 0,
            leavesQty := qty }⟩ :: fills.flatMap (Fill.responses x) ∧
      b'.marketUpdates = b.marketUpdates ++ fills.flatMap (Fill.updates x) ++ rested ∧
      (∀ i f, fills[i]? = some f → f.leaves.toNat + executed (fills.take (i + 1)) = qty.toNat) ∧
      (∀ f ∈ fills, f.exec.toNat ≤ f.resting.qty.toNat ∧ Within side price f.resting.price) ∧
      leaves.toNat + executed fills = qty.toNat ∧
      ((leaves = 0 ∧ rested = []) ∨ (leaves ≠ 0 ∧ ∃ priority, rested = [⟨some x.no,
        { type := .ADD, orderId := x.id, tickerId, side, price, qty := leaves, priority }⟩])) := by
  obtain ⟨b₁, leaves, hm, hend⟩ := add_ok hx h
  have hxs : x.side = side ∧ x.price = price := by
    rw [hx]
    exact ⟨rfl, rfl⟩
  obtain ⟨fills, hf⟩ := fills_of_matching (by rw [hxs.1]; exact hside) hm
  obtain ⟨hresponses, hupdates⟩ := hf.messages
  have haccepted : (b.accepted x qty).clientResponses ++ fills.flatMap (Fill.responses x) = b.clientResponses ++
      ⟨some x.no,
        { type := .ACCEPTED, clientId, tickerId, clientOrderId, marketOrderId := x.id, side, price, execQty := 0,
          leavesQty := qty }⟩ :: fills.flatMap (Fill.responses x) := by
    rw [hx]
    simp [accepted, incoming]
  have hfair : ∀ f ∈ fills, f.exec.toNat ≤ f.resting.qty.toNat ∧ Within side price f.resting.price := by
    intro f hm
    rw [← hxs.1, ← hxs.2]
    exact (hf.fair f hm).imp_right within_of_stop
  rcases hend with ⟨h0, rfl⟩ | ⟨hne, hrest⟩
  · refine ⟨fills, b', leaves, [], hf, hresponses.trans haccepted, ?_, hf.conserved_at, hfair, hf.conserved, .inl ⟨h0, rfl⟩⟩
    rw [List.append_nil]
    exact hupdates
  · obtain ⟨hr, priority, hu⟩ := rest_messages hrest
    refine ⟨fills, b₁, leaves, _, hf, ?_, ?_, hf.conserved_at, hfair, hf.conserved, .inr ⟨hne, priority, rfl⟩⟩
    · rw [hr]
      exact hresponses.trans haccepted
    · rw [hu, hupdates, hx]
      rfl

/-- A BUY of 4 that meets a SELL of 10. -/
theorem add_accounts_oneFill : ∃ b b' fills leaves, add 3 4 0 .BUY 100 4 b = .ok () b' ∧
    b.clientResponses.length = 1 ∧ b'.clientResponses.length = 4 ∧
    b'.clientResponses.drop 2 = (fills : List Fill).flatMap (Fill.responses (b.incoming 3 4 0 .BUY 100)) ∧
    (leaves : Qty).toNat + executed fills = 4 := by
  obtain ⟨b', hrun, hlen'⟩ : ∃ b', Reaches call (fun _ _ => True) (fresh true)
      ([.add 1 2 0 .SELL 100 10] ++ [.add 3 4 0 .BUY 100 4]) b' ∧ b'.clientResponses.length = 4 :=
    exists_run true _ (fun b => b.clientResponses.length = 4) (by decide +kernel)
  obtain ⟨b, hbefore, -, hadd⟩ := hrun.last
  have hlen : b.clientResponses.length = 1 := by
    obtain ⟨b₁, hrun₁, hlen₁⟩ := exists_run true [.add 1 2 0 .SELL 100 10] (fun b => b.clientResponses.length = 1)
      (by decide +kernel)
    rwa [hbefore.unique hrun₁]
  obtain ⟨fills, b₁, leaves, rested, -, hresponses, -, -, -, htotal, -⟩ := add_accounts (.inl rfl) rfl hadd
  refine ⟨b, b', fills, leaves, hadd, hlen, hlen', ?_, htotal⟩
  rw [hresponses, List.drop_append, hlen, List.drop_eq_nil_of_le (by omega), List.nil_append]
  rfl

end TradingEcosystem.MEOrderBook
