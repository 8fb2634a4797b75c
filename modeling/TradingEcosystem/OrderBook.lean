import TradingEcosystem.MemPool
import TradingEcosystem.Messages

/-! `me_order.h`, `me_order_book.h` and `me_order_book.cpp`: the order book as a
program over its two pools, hash map, index and best-price pointers. A pointer is
null or the number of a block; every use of one goes through `order` or `level`. -/
namespace TradingEcosystem
open Program

abbrev OrderPtr := Nat
abbrev LevelPtr := Nat

/-- `addNo` is proof-only: the number of the `add` call that built the order. -/
structure MEOrder where
  tickerId : TickerId := tickerIdInvalid
  clientId : ClientId := clientIdInvalid
  clientOrderId : OrderId := orderIdInvalid
  marketOrderId : OrderId := orderIdInvalid
  side : Side := .INVALID
  price : Price := priceInvalid
  qty : Qty := qtyInvalid
  priority : Priority := priorityInvalid
  prevOrder : Option OrderPtr := none
  nextOrder : Option OrderPtr := none
  addNo : Option Nat := none
  deriving Inhabited, DecidableEq

structure MEOrdersAtPrice where
  side : Side := .INVALID
  price : Price := priceInvalid
  firstMeOrder : Option OrderPtr := none
  prevEntry : Option LevelPtr := none
  nextEntry : Option LevelPtr := none
  deriving DecidableEq

instance : Inhabited MEOrder := ⟨{}⟩
instance : Inhabited MEOrdersAtPrice := ⟨{}⟩

/-- The members of the book that its code reads. `clientResponses` and `marketUpdates`
are what the matching engine was handed. `issued` and `strict` are proof-only: the ids
`generateNewMarketOrderId` returned, and whether a run ends where it would follow a
pointer to a freed block (otherwise it goes on with the contents of the block). -/
structure MEOrderBook where
  cidOidToOrder : ClientId → OrderId → Option OrderPtr := fun _ _ => none
  ordersAtPricePool : MemPool MEOrdersAtPrice := .ofSize ME_MAX_PRICE_LEVELS
  bidsAtPrice : Option LevelPtr := none
  asksAtPrice : Option LevelPtr := none
  priceOrdersAtPriceHashMap : Fin ME_MAX_PRICE_LEVELS → Option LevelPtr := fun _ => none
  orderPool : MemPool MEOrder := .ofSize ME_MAX_ORDER_IDS
  nextMarketOrderId : OrderId := 1
  clientResponses : List (Report MEClientResponse) := []
  marketUpdates : List (Report MEMarketUpdate) := []
  issued : List OrderId := []
  strict : Bool := false

abbrev BookM := EStateM Fault MEOrderBook

namespace MEOrderBook

/-! ## Pointers -/

@[simps -fullyApplied] def writeOrder (b : MEOrderBook) (p : OrderPtr) (f : MEOrder → MEOrder) : MEOrderBook :=
  { b with orderPool := b.orderPool.write p f }

@[simps -fullyApplied] def writeLevel (b : MEOrderBook) (p : LevelPtr) (f : MEOrdersAtPrice → MEOrdersAtPrice) : MEOrderBook :=
  { b with ordersAtPricePool := b.ordersAtPricePool.write p f }

/-- `*p` for an order. -/
def order : Option OrderPtr → BookM MEOrder
  | none => throw .nullDeref
  | some p => fun b =>
    if b.strict = true ∧ ¬ b.orderPool.Live p then .error .freedDeref b else .ok (b.orderPool.get p) b

/-- Assignments to fields of `*p`. -/
def setOrder (f : MEOrder → MEOrder) : Option OrderPtr → BookM Unit
  | none => throw .nullDeref
  | some p => fun b =>
    if b.strict = true ∧ ¬ b.orderPool.Live p then .error .freedDeref b
    else .ok () (b.writeOrder p f)

/-- `*p` for a price level. -/
def level : Option LevelPtr → BookM MEOrdersAtPrice
  | none => throw .nullDeref
  | some p => fun b =>
    if b.strict = true ∧ ¬ b.ordersAtPricePool.Live p then .error .freedDeref b
    else .ok (b.ordersAtPricePool.get p) b

def setLevel (f : MEOrdersAtPrice → MEOrdersAtPrice) : Option LevelPtr → BookM Unit
  | none => throw .nullDeref
  | some p => fun b =>
    if b.strict = true ∧ ¬ b.ordersAtPricePool.Live p then .error .freedDeref b
    else .ok () (b.writeLevel p f)

def allocateOrder (o : MEOrder) : BookM OrderPtr := fun b =>
  match b.orderPool.allocate o with
  | .ok (p, pool) => .ok p { b with orderPool := pool }
  | .error e => .error e b

def deallocateOrder : Option OrderPtr → BookM Unit
  | none => throw .nullDeref
  | some p => fun b =>
    match b.orderPool.deallocate p with
    | .ok pool => .ok () { b with orderPool := pool }
    | .error e => .error e b

def allocateLevel (l : MEOrdersAtPrice) : BookM LevelPtr := fun b =>
  match b.ordersAtPricePool.allocate l with
  | .ok (p, pool) => .ok p { b with ordersAtPricePool := pool }
  | .error e => .error e b

def deallocateLevel : Option LevelPtr → BookM Unit
  | none => throw .nullDeref
  | some p => fun b =>
    match b.ordersAtPricePool.deallocate p with
    | .ok pool => .ok () { b with ordersAtPricePool := pool }
    | .error e => .error e b

/-! ## Members of the engine and the index -/

@[simps -fullyApplied] def reportResponses (b : MEOrderBook) (l : List (Report MEClientResponse)) : MEOrderBook :=
  { b with clientResponses := b.clientResponses ++ l }

@[simps -fullyApplied] def reportUpdates (b : MEOrderBook) (l : List (Report MEMarketUpdate)) : MEOrderBook :=
  { b with marketUpdates := b.marketUpdates ++ l }

def sendClientResponse (about : Option Nat) (r : MEClientResponse) : BookM Unit :=
  modify fun b => b.reportResponses [⟨about, r⟩]

def sendMarketUpdate (about : Option Nat) (u : MEMarketUpdate) : BookM Unit :=
  modify fun b => b.reportUpdates [⟨about, u⟩]

/-- `cid_oid_to_order_.at(client_id).at(client_order_id) = p`. -/
def setCidOidToOrder (clientId : ClientId) (clientOrderId : OrderId) (p : Option OrderPtr) : BookM Unit :=
  if clientId.toNat < ME_MAX_NUM_CLIENTS ∧ clientOrderId.toNat < ME_MAX_ORDER_IDS then
    modify fun b => { b with cidOidToOrder := fun c k =>
      if c = clientId ∧ k = clientOrderId then p else b.cidOidToOrder c k }
  else throw .outOfRange

def generateNewMarketOrderId : BookM OrderId := modifyGet fun b =>
  (b.nextMarketOrderId,
    { b with nextMarketOrderId := b.nextMarketOrderId + 1, issued := b.issued ++ [b.nextMarketOrderId] })

/-- `price % ME_MAX_PRICE_LEVELS`: the price is converted to the `size_t` of the modulus. -/
def priceToIndex (price : Price) : Fin ME_MAX_PRICE_LEVELS :=
  ⟨price.toUInt64.toNat % ME_MAX_PRICE_LEVELS, Nat.mod_lt _ (by decide)⟩

def getOrdersAtPrice (price : Price) : BookM (Option LevelPtr) := do
  return (← get).priceOrdersAtPriceHashMap (priceToIndex price)

def setOrdersAtPrice (price : Price) (p : Option LevelPtr) : BookM Unit :=
  modify fun b => { b with
    priceOrdersAtPriceHashMap := Function.update b.priceOrdersAtPriceHashMap (priceToIndex price) p }

/-- `side == Side::BUY ? bids_at_price_ : asks_at_price_`. -/
def bestOrdersByPrice (side : Side) : BookM (Option LevelPtr) := do
  let b ← get
  return if side = .BUY then b.bidsAtPrice else b.asksAtPrice

/-- `side == Side::BUY ? bids_at_price_ : asks_at_price_ = p`. An assignment binds
weaker than `?:` and forms its last operand, so only `asks_at_price_` is ever assigned. -/
def assignBestOrdersByPrice (side : Side) (p : Option LevelPtr) : BookM Unit :=
  if side = .BUY then pure () else modify fun b => { b with asksAtPrice := p }

/-! ## `addOrdersAtPrice` and `removeOrdersAtPrice` -/

/-- The test `add_after`: `a` is behind `b` in the order of their side. -/
def addAfter (a b : MEOrdersAtPrice) : Bool :=
  (a.side = .SELL && a.price > b.price) || (a.side = .BUY && a.price < b.price)

/-- `while (add_after && target != best_orders_by_price)`. The fuel bounds the tests
of the condition: a walk that is not over after every level was met never ends. -/
def addAfterLoop (newOrdersAtPrice : LevelPtr) (best : Option LevelPtr) :
    Nat → Bool → Option LevelPtr → BookM (Bool × Option LevelPtr)
  | 0, _, _ => throw .diverges
  | fuel + 1, after, target =>
    if after && target != best then do
      let new ← level (some newOrdersAtPrice)
      let t ← level target
      if addAfter new t then addAfterLoop newOrdersAtPrice best fuel true t.nextEntry
      else addAfterLoop newOrdersAtPrice best fuel false target
    else return (after, target)

/-- The search of `addOrdersAtPrice`: the first test, the look-ahead and the loop. -/
def findTarget (newOrdersAtPrice : LevelPtr) (best : Option LevelPtr) : BookM (Bool × Option LevelPtr) := do
  let new ← level (some newOrdersAtPrice)
  let t ← level best
  if addAfter new t then
    let target := t.nextEntry
    let t ← level target
    addAfterLoop newOrdersAtPrice best (ME_MAX_PRICE_LEVELS + 2) (addAfter new t) target
  else addAfterLoop newOrdersAtPrice best (ME_MAX_PRICE_LEVELS + 2) false best

/-- The assignments under "add new_orders_at_price after target". The `next_entry_` of
the new level is not assigned there and stays the null of its constructor. -/
def linkAfter (newOrdersAtPrice : LevelPtr) (target : Option LevelPtr) : BookM Unit := do
  setLevel (fun l => { l with prevEntry := target }) (some newOrdersAtPrice)
  setLevel (fun l => { l with prevEntry := some newOrdersAtPrice }) (← level target).nextEntry
  setLevel (fun l => { l with nextEntry := some newOrdersAtPrice }) target

def insertAfter (newOrdersAtPrice : LevelPtr) (best target : Option LevelPtr) : BookM Unit :=
  if target = best then do linkAfter newOrdersAtPrice (← level best).prevEntry
  else linkAfter newOrdersAtPrice target

/-- "add new_orders_at_price before target". -/
def insertBefore (newOrdersAtPrice : LevelPtr) (best target : Option LevelPtr) : BookM Unit := do
  let t ← level target
  setLevel (fun l => { l with prevEntry := t.prevEntry }) (some newOrdersAtPrice)
  setLevel (fun l => { l with nextEntry := target }) (some newOrdersAtPrice)
  setLevel (fun l => { l with nextEntry := some newOrdersAtPrice }) (← level target).prevEntry
  setLevel (fun l => { l with prevEntry := some newOrdersAtPrice }) target
  let new ← level (some newOrdersAtPrice)
  let bestLevel ← level best
  if (new.side = .BUY ∧ new.price > bestLevel.price) ∨ (new.side = .SELL ∧ new.price < bestLevel.price) then
    let t ← level target
    setLevel (fun l => { l with
      nextEntry := if t.nextEntry = best then some newOrdersAtPrice else t.nextEntry }) target
    assignBestOrdersByPrice new.side (some newOrdersAtPrice)

def addOrdersAtPrice (newOrdersAtPrice : LevelPtr) : BookM Unit := do
  let new ← level (some newOrdersAtPrice)
  setOrdersAtPrice new.price (some newOrdersAtPrice)
  let best ← bestOrdersByPrice new.side
  if best = none then
    assignBestOrdersByPrice new.side (some newOrdersAtPrice)
    setLevel (fun l => { l with prevEntry := some newOrdersAtPrice, nextEntry := some newOrdersAtPrice })
      (some newOrdersAtPrice)
  else
    let (after, target) ← findTarget newOrdersAtPrice best
    if after then insertAfter newOrdersAtPrice best target
    else insertBefore newOrdersAtPrice best target

/-- The `if` of `removeOrdersAtPrice`: the level leaves the ring it is linked into. -/
def unlinkLevel (side : Side) (best ordersAtPrice : Option LevelPtr) : BookM Unit := do
  let l ← level ordersAtPrice
  if l.nextEntry = ordersAtPrice then
    assignBestOrdersByPrice side none
  else
    setLevel (fun p => { p with nextEntry := l.nextEntry }) l.prevEntry
    let l ← level ordersAtPrice
    setLevel (fun n => { n with prevEntry := l.prevEntry }) l.nextEntry
    if ordersAtPrice = best then
      assignBestOrdersByPrice side (← level ordersAtPrice).nextEntry
    setLevel (fun l => { l with prevEntry := none, nextEntry := none }) ordersAtPrice

def removeOrdersAtPrice (side : Side) (price : Price) : BookM Unit := do
  let best ← bestOrdersByPrice side
  let ordersAtPrice ← getOrdersAtPrice price
  unlinkLevel side best ordersAtPrice
  setOrdersAtPrice price none
  deallocateLevel ordersAtPrice

/-! ## `getNextPriority`, `addOrder` and `removeOrder` -/

def getNextPriority (price : Price) : BookM Priority := do
  let ordersAtPrice ← getOrdersAtPrice price
  if ordersAtPrice = none then return 1
  let l ← level ordersAtPrice
  let first ← order l.firstMeOrder
  return (← order first.prevOrder).priority + 1

/-- The `if` of `addOrder`: a new level for the order, or the end of the level's ring. -/
def linkOrder (p : OrderPtr) (o : MEOrder) (ordersAtPrice : Option LevelPtr) : BookM Unit :=
  if ordersAtPrice = none then do
    setOrder (fun o => { o with nextOrder := some p, prevOrder := some p }) (some p)
    let newOrdersAtPrice ← allocateLevel
      { side := o.side, price := o.price, firstMeOrder := some p, prevEntry := none, nextEntry := none }
    addOrdersAtPrice newOrdersAtPrice
  else do
    let firstOrder := (← level ordersAtPrice).firstMeOrder
    setOrder (fun o => { o with nextOrder := some p }) (← order firstOrder).prevOrder
    let first ← order firstOrder
    setOrder (fun o => { o with prevOrder := first.prevOrder }) (some p)
    setOrder (fun o => { o with nextOrder := firstOrder }) (some p)
    setOrder (fun o => { o with prevOrder := some p }) firstOrder

def addOrder (p : OrderPtr) : BookM Unit := do
  let o ← order (some p)
  let ordersAtPrice ← getOrdersAtPrice o.price
  linkOrder p o ordersAtPrice
  setCidOidToOrder o.clientId o.clientOrderId (some p)

/-- The `if` of `removeOrder`: the level goes with its last order, or the order
leaves the level's ring. -/
def unlinkOrder (p : Option OrderPtr) (o : MEOrder) (ordersAtPrice : Option LevelPtr) : BookM Unit :=
  if o.prevOrder = p then
    removeOrdersAtPrice o.side o.price
  else do
    let orderBefore := o.prevOrder
    let orderAfter := o.nextOrder
    setOrder (fun x => { x with nextOrder := orderAfter }) orderBefore
    setOrder (fun x => { x with prevOrder := orderBefore }) orderAfter
    if (← level ordersAtPrice).firstMeOrder = p then
      setLevel (fun l => { l with firstMeOrder := orderAfter }) ordersAtPrice
    setOrder (fun x => { x with prevOrder := none, nextOrder := none }) p

def removeOrder (p : Option OrderPtr) : BookM Unit := do
  let o ← order p
  let ordersAtPrice ← getOrdersAtPrice o.price
  unlinkOrder p o ordersAtPrice
  setCidOidToOrder o.clientId o.clientOrderId none
  deallocateOrder p

/-! ## `match`, `checkForMatch`, `add` and `cancel` -/

/-- The end of `match`: the resting order is full and goes, or goes on with what is left. -/
def settle (tickerId : TickerId) (itr : Option OrderPtr) (order : MEOrder) (orderQty : Qty) : BookM Unit :=
  if order.qty = 0 then do
    sendMarketUpdate order.addNo
      { type := .CANCEL, orderId := order.marketOrderId, tickerId, side := order.side, price := order.price,
        qty := orderQty, priority := priorityInvalid }
    removeOrder itr
  else
    sendMarketUpdate order.addNo
      { type := .MODIFY, orderId := order.marketOrderId, tickerId, side := order.side, price := order.price,
        qty := order.qty, priority := order.priority }

/-- `match`; it returns the `*leaves_qty` it leaves. `no` is the number of the incoming order. -/
def match_ (no : Nat) (tickerId : TickerId) (clientId : ClientId) (side : Side) (clientOrderId : OrderId)
    (newMarketOrderId : OrderId) (itr : Option OrderPtr) (leavesQty : Qty) : BookM Qty := do
  let orderQty := (← order itr).qty
  let fillQty := min leavesQty orderQty
  setOrder (fun o => { o with qty := o.qty - fillQty }) itr
  let order ← order itr
  sendClientResponse (some no)
    { type := .FILLED, clientId, tickerId, clientOrderId, marketOrderId := newMarketOrderId, side,
      price := order.price, execQty := fillQty, leavesQty := leavesQty - fillQty }
  sendClientResponse order.addNo
    { type := .FILLED, clientId := order.clientId, tickerId, clientOrderId := order.clientOrderId,
      marketOrderId := order.marketOrderId, side := order.side, price := order.price, execQty := fillQty,
      leavesQty := order.qty }
  sendMarketUpdate none
    { type := .TRADE, orderId := orderIdInvalid, tickerId, side, price := order.price, qty := fillQty,
      priority := priorityInvalid }
  settle tickerId itr order orderQty
  return leavesQty - fillQty

/-- A `while` loop of `checkForMatch`: `best` is the pointer it re-reads, `stop` the
test that breaks it. Each turn lowers the leaves quantity or frees a block, which
bounds the turns. -/
def matchLoop (best : MEOrderBook → Option LevelPtr) (stop : Price → Bool) (trade : Option OrderPtr → Qty → BookM Qty) :
    Nat → Qty → BookM Qty
  | 0, _ => throw .diverges
  | fuel + 1, leavesQty => do
    let bestOrdersByPrice := best (← get)
    if leavesQty = 0 ∨ bestOrdersByPrice = none then return leavesQty
    else
      let itr := (← level bestOrdersByPrice).firstMeOrder
      if stop (← order itr).price then return leavesQty
      else
        let leavesQty ← trade itr leavesQty
        matchLoop best stop trade fuel leavesQty

def turns (qty : Qty) : Nat := qty.toNat + ME_MAX_ORDER_IDS + 1

/-- `if (side == Side::BUY)` with its loop. -/
def matchAsks (side : Side) (price : Price) (trade : Option OrderPtr → Qty → BookM Qty) (qty : Qty) : BookM Qty :=
  if side = .BUY then matchLoop asksAtPrice (fun ask => price < ask) trade (turns qty) qty else return qty

/-- `if (side == Side::SELL)` with its loop. -/
def matchBids (side : Side) (price : Price) (trade : Option OrderPtr → Qty → BookM Qty) (qty : Qty) : BookM Qty :=
  if side = .SELL then matchLoop bidsAtPrice (fun bid => price > bid) trade (turns qty) qty else return qty

/-- The last parameter is declared `Qty`, so the market order id arrives as its low 32 bits. -/
def checkForMatch (no : Nat) (clientId : ClientId) (clientOrderId : OrderId) (tickerId : TickerId) (side : Side)
    (price : Price) (qty : Qty) (newMarketOrderId : Qty) : BookM Qty := do
  let trade := match_ no tickerId clientId side clientOrderId newMarketOrderId.toUInt64
  let leavesQty ← matchAsks side price trade qty
  matchBids side price trade leavesQty

/-- The remainder of an order comes to rest. -/
def rest (no : Nat) (clientId : ClientId) (clientOrderId : OrderId) (tickerId : TickerId) (side : Side)
    (price : Price) (leavesQty : Qty) (newMarketOrderId : OrderId) : BookM Unit := do
  let priority ← getNextPriority price
  let p ← allocateOrder
    { tickerId, clientId, clientOrderId, marketOrderId := newMarketOrderId, side, price, qty := leavesQty,
      priority, prevOrder := none, nextOrder := none, addNo := some no }
  addOrder p
  sendMarketUpdate (some no)
    { type := .ADD, orderId := newMarketOrderId, tickerId, side, price, qty := leavesQty, priority }

def add (clientId : ClientId) (clientOrderId : OrderId) (tickerId : TickerId) (side : Side) (price : Price)
    (qty : Qty) : BookM Unit := do
  let no := (← get).issued.length
  let newMarketOrderId ← generateNewMarketOrderId
  sendClientResponse (some no)
    { type := .ACCEPTED, clientId, tickerId, clientOrderId, marketOrderId := newMarketOrderId, side, price,
      execQty := 0, leavesQty := qty }
  let leavesQty ← checkForMatch no clientId clientOrderId tickerId side price qty newMarketOrderId.toUInt32
  if leavesQty ≠ 0 then rest no clientId clientOrderId tickerId side price leavesQty newMarketOrderId
  else return ()

/-- The order that `cancel` finds in the index; an order id out of range throws. -/
def exchangeOrder (clientId : ClientId) (orderId : OrderId) : BookM (Option OrderPtr) :=
  if clientId.toNat < ME_MAX_NUM_CLIENTS then
    if orderId.toNat < ME_MAX_ORDER_IDS then (do return (← get).cidOidToOrder clientId orderId)
    else throw .outOfRange
  else return none

def cancel (clientId : ClientId) (orderId : OrderId) (tickerId : TickerId) : BookM Unit := do
  let exchangeOrder ← exchangeOrder clientId orderId
  if exchangeOrder = none then
    sendClientResponse none
      { type := .CANCEL_REJECTED, clientId, tickerId, clientOrderId := orderId,
        marketOrderId := orderIdInvalid, side := .INVALID, price := priceInvalid, execQty := qtyInvalid,
        leavesQty := qtyInvalid }
  else
    -- both messages are filled in before the order is removed
    let o ← order exchangeOrder
    removeOrder exchangeOrder
    sendMarketUpdate o.addNo
      { type := .CANCEL, orderId := o.marketOrderId, tickerId, side := o.side, price := o.price, qty := 0,
        priority := o.priority }
    sendClientResponse o.addNo
      { type := .CANCELED, clientId, tickerId, clientOrderId := orderId, marketOrderId := o.marketOrderId,
        side := o.side, price := o.price, execQty := qtyInvalid, leavesQty := o.qty }

/-- One call of a client of the book. -/
inductive Request where
  | add (clientId : ClientId) (clientOrderId : OrderId) (tickerId : TickerId) (side : Side) (price : Price) (qty : Qty)
  | cancel (clientId : ClientId) (orderId : OrderId) (tickerId : TickerId)
  deriving DecidableEq

def call : Request → BookM Unit
  | .add clientId clientOrderId tickerId side price qty => add clientId clientOrderId tickerId side price qty
  | .cancel clientId orderId tickerId => cancel clientId orderId tickerId

/-- A book as its constructor leaves it. -/
def fresh (strict : Bool) : MEOrderBook := { strict }

end MEOrderBook
end TradingEcosystem
