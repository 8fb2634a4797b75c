import TradingEcosystem.OrderBook.Insertion
import TradingEcosystem.OrderBook.AskSide
import TradingEcosystem.Library.Reading
import TradingEcosystem.Library.SortedScan

/-! `toString` of the order book, its levels and its orders: what is printed for a book of
well-formed rings, and which books the validity check refuses. -/
namespace TradingEcosystem
open Program MEOrderBook

/-! ## `me_order.h` and `me_order.cpp` -/

/-- `order ? order -> market_order_id_ : OrderId_INVALID`. -/
def orderIdOf : Option OrderPtr → BookM OrderId
  | none => return orderIdInvalid
  | some p => return (← order (some p)).marketOrderId

/-- `entry ? entry -> price_ : Price_INVALID`. -/
def priceOf : Option LevelPtr → BookM Price
  | none => return priceInvalid
  | some ℓ => return (← level (some ℓ)).price

namespace MEOrder

def text (o : MEOrder) (prev next : OrderId) : String :=
  " MEOrder " ++ " [ " ++ " Ticker: " ++ tickerIdToString o.tickerId ++
    " Client_order_id: " ++ clientIdToString o.clientId ++ " Order_Id: " ++ orderIdToString o.clientOrderId ++
    " Market_order_id: " ++ orderIdToString o.marketOrderId ++ " Side: " ++ sideToString o.side ++
    " Price: " ++ priceToString o.price ++ " Qty: " ++ qtyToString o.qty ++
    " Priority: " ++ priorityToString o.priority ++ " Prev: " ++ orderIdToString prev ++
    " Next: " ++ orderIdToString next ++ " ] "

def toString (o : MEOrder) : BookM String := do
  return o.text (← orderIdOf o.prevOrder) (← orderIdOf o.nextOrder)

end MEOrder

namespace MEOrdersAtPrice

def text (l : MEOrdersAtPrice) (firstMeOrder : String) (prev next : Price) : String :=
  "MEOrdersAtPrice: " ++ " [ " ++ " Side: " ++ sideToString l.side ++ " Price: " ++ priceToString l.price ++
    " First ME Order: " ++ firstMeOrder ++ " Prev: " ++ priceToString prev ++ " Next: " ++ priceToString next ++ " ] "

/-- `first_me_order_ ? first_me_order_ -> toString() : "null"`. -/
def firstToString : Option OrderPtr → BookM String
  | none => return "null"
  | some p => do (← order (some p)).toString

def toString (l : MEOrdersAtPrice) : BookM String := do
  return l.text (← firstToString l.firstMeOrder) (← priceOf l.prevEntry) (← priceOf l.nextEntry)

end MEOrdersAtPrice

namespace MEOrderBook
open LinkedRing SortedScan Runs
variable {b : MEOrderBook} {l asks bids : List (LevelPtr × List OrderPtr)} {ps : List OrderPtr} {p : OrderPtr} {ℓ : LevelPtr}
  {itr : Option OrderPtr} {entry : Option LevelPtr} {y : LevelPtr × List OrderPtr} {side : Side}

/-! ## `toString` -/

/-- `sprintf` into `char buf[4096]`, which takes the text and its terminator. -/
def sprintf (text : String) : BookM String := if text.length < 4096 then return text else throw .overrun

/-- `" <px:%3s p:%3s n:%3s> %-3s @ %-5s(%-4s)"`. -/
def levelFormat (price prev next : Price) (qty : Qty) (numOrders : Nat) : String :=
  " <px:" ++ .leftpad 3 ' ' (priceToString price) ++ " p:" ++ .leftpad 3 ' ' (priceToString prev) ++
    " n:" ++ .leftpad 3 ' ' (priceToString next) ++ "> " ++ .rightpad 3 ' ' (priceToString price) ++
    " @ " ++ .rightpad 5 ' ' (qtyToString qty) ++ "(" ++ .rightpad 4 ' ' numOrders.repr ++ ")"

/-- `"[oid:%s q:%s p:%s n:%s] "`. -/
def orderFormat (marketOrderId : OrderId) (qty : Qty) (prev next : OrderId) : String :=
  "[oid:" ++ orderIdToString marketOrderId ++ " q:" ++ qtyToString qty ++ " p:" ++ orderIdToString prev ++
    " n:" ++ orderIdToString next ++ "] "

/-- `for (auto o_itr = first; ; o_itr = o_itr -> next_order_)`, which breaks behind the order that is linked
back to the first one. The fuel bounds the turns: a walk that meets more orders than there are never ends. -/
def ordersLoop {γ : Type} (first : Option OrderPtr) (body : MEOrder → γ → BookM γ) : Nat → Option OrderPtr → γ → BookM γ
  | 0, _, _ => throw .diverges
  | fuel + 1, oItr, acc => do
    let o ← order oItr
    let acc ← body o acc
    if o.nextOrder = first then return acc
    else ordersLoop first body fuel o.nextOrder acc

/-- The body of the first loop of `printer`. -/
def countOrder (o : MEOrder) (acc : Qty × Nat) : BookM (Qty × Nat) := return (acc.1 + o.qty, acc.2 + 1)

/-- The body of the second one. -/
def printOrder (detailed : Bool) (o : MEOrder) (str : String) : BookM String :=
  if detailed then do
    let buf ← sprintf (orderFormat o.marketOrderId o.qty (← orderIdOf o.prevOrder) (← orderIdOf o.nextOrder))
    return str ++ buf
  else return str

/-- The end of `printer` with the `last_price` that it leaves. -/
def sanityCheck (itr : MEOrdersAtPrice) (side : Side) (lastPrice : Price) : Bool → BookM Price
  | true =>
    if (side = .SELL ∧ lastPrice ≥ itr.price) ∨ (side = .BUY ∧ lastPrice ≤ itr.price) then do
      let text ← itr.toString
      throw (.fatal ("Bids/Asks not sorted by ascending/descending prices last:" ++ priceToString lastPrice ++ " itr:" ++ text))
    else return itr.price
  | false => return lastPrice

def printer (detailed : Bool) (str : String) (itr : Option LevelPtr) (side : Side) (lastPrice : Price) (validityCheck : Bool) :
    BookM (Price × String) := do
  let l ← level itr
  let (qty, numOrders) ← ordersLoop l.firstMeOrder countOrder ME_MAX_ORDER_IDS l.firstMeOrder (0, 0)
  let prev ← level l.prevEntry
  let next ← level l.nextEntry
  let buf ← sprintf (levelFormat l.price prev.price next.price qty numOrders)
  let str ← ordersLoop l.firstMeOrder (printOrder detailed) ME_MAX_ORDER_IDS l.firstMeOrder (str ++ buf)
  let str := str ++ "\n"
  let lastPrice ← sanityCheck l side lastPrice validityCheck
  return (lastPrice, str)

/-- The loop over the levels of a side behind `best`, with the `last_price`, the `count` and the stream. -/
def levelsLoop (title : String) (side : Side) (detailed validityCheck : Bool) (best : Option LevelPtr) :
    Nat → Option LevelPtr → Price × Nat × String → BookM (Price × Nat × String)
  | _, none, acc => return acc
  | 0, some _, _ => throw .diverges
  | fuel + 1, some itr, (lastPrice, count, ss) => do
    let ss := ss ++ title ++ " L:" ++ count.repr ++ " => "
    let l ← level (some itr)
    let nextItr := if l.nextEntry = best then none else l.nextEntry
    let (lastPrice, ss) ← printer detailed ss (some itr) side lastPrice validityCheck
    levelsLoop title side detailed validityCheck best fuel nextItr (lastPrice, count + 1, ss)

/-- `toString` of the book for `ticker_id_`. -/
def toString (tickerId : TickerId) (detailed validityCheck : Bool) : BookM String := do
  let ss := "Ticker:" ++ tickerIdToString tickerId ++ "\n"
  let asks := (← get).asksAtPrice
  let (_, _, ss) ← levelsLoop "ASKS" .SELL detailed validityCheck asks ME_MAX_PRICE_LEVELS asks (Int64.minValue, 0, ss)
  let ss := ss ++ "\n" ++ "                          X" ++ "\n" ++ "\n"
  let bids := (← get).bidsAtPrice
  let (_, _, ss) ← levelsLoop "BIDS" .BUY detailed validityCheck bids ME_MAX_PRICE_LEVELS bids (Int64.maxValue, 0, ss)
  return ss

/-! ## The reference -/

/-- A block of the order pool that the code may follow a pointer to. -/
def OrderBlock (b : MEOrderBook) (p : OrderPtr) : Prop :=
  p < ME_MAX_ORDER_IDS ∧ (b.strict = true → b.orderPool.Live p)

instance (b : MEOrderBook) (p : OrderPtr) : Decidable (b.OrderBlock p) := inferInstanceAs (Decidable (_ ∧ _))

/-- `ps` lists the orders of level `ℓ` around a closed ring, from its first one on. -/
structure OrderRing (b : MEOrderBook) (ℓ : LevelPtr) (ps : List OrderPtr) : Prop where
  nonempty : ps ≠ []
  first : (b.ordersAtPricePool.get ℓ).firstMeOrder = ps.head?
  links : Ring False b.nextOrder b.prevOrder ps
  nodup : ps.Nodup
  blocks : ∀ p ∈ ps, b.OrderBlock p

instance (b : MEOrderBook) (ℓ : LevelPtr) (ps : List OrderPtr) : Decidable (b.OrderRing ℓ ps) :=
  decidable_of_iff (_ ∧ _ ∧ _ ∧ _ ∧ _)
    ⟨fun h => ⟨h.1, h.2.1, h.2.2.1, h.2.2.2.1, h.2.2.2.2⟩, fun h => ⟨h.nonempty, h.first, h.links, h.nodup, h.blocks⟩⟩

/-- `l` lists the levels of a side around a closed ring, from the best one on, with their orders. -/
structure SideRings (b : MEOrderBook) (best : Option LevelPtr) (l : List (LevelPtr × List OrderPtr)) : Prop where
  head : best = (l.map Prod.fst).head?
  links : Ring False b.nextEntry b.prevEntry (l.map Prod.fst)
  nodup : (l.map Prod.fst).Nodup
  blocks : ∀ y ∈ l, b.Block y.1
  orders : ∀ y ∈ l, b.OrderRing y.1 y.2

instance (b : MEOrderBook) (best : Option LevelPtr) (l : List (LevelPtr × List OrderPtr)) : Decidable (b.SideRings best l) :=
  decidable_of_iff (_ ∧ _ ∧ _ ∧ _ ∧ _)
    ⟨fun h => ⟨h.1, h.2.1, h.2.2.1, h.2.2.2.1, h.2.2.2.2⟩, fun h => ⟨h.head, h.links, h.nodup, h.blocks, h.orders⟩⟩

/-- A book of well-formed rings. -/
structure BookRings (b : MEOrderBook) (asks bids : List (LevelPtr × List OrderPtr)) : Prop where
  asks : SideRings b b.asksAtPrice asks
  bids : SideRings b b.bidsAtPrice bids

instance (b : MEOrderBook) (asks bids : List (LevelPtr × List OrderPtr)) : Decidable (b.BookRings asks bids) :=
  decidable_of_iff (_ ∧ _) ⟨fun h => ⟨h.1, h.2⟩, fun h => ⟨h.asks, h.bids⟩⟩

def idAt (b : MEOrderBook) : Option OrderPtr → OrderId
  | none => orderIdInvalid
  | some p => (b.orderPool.get p).marketOrderId

def priceAt (b : MEOrderBook) : Option LevelPtr → Price
  | none => priceInvalid
  | some ℓ => b.levelPrice ℓ

def orderText (b : MEOrderBook) (p : OrderPtr) : String :=
  orderFormat (b.orderPool.get p).marketOrderId (b.orderPool.get p).qty (b.idAt (b.prevOrder p)) (b.idAt (b.nextOrder p))

/-- A level with the number of its orders, what they have left together and, if asked for, each of them. -/
def levelText (b : MEOrderBook) (detailed : Bool) (y : LevelPtr × List OrderPtr) : String :=
  levelFormat (b.levelPrice y.1) (b.priceAt (b.prevEntry y.1)) (b.priceAt (b.nextEntry y.1))
      (y.2.map fun p => (b.orderPool.get p).qty).sum y.2.length ++
    (if detailed then .join (y.2.map b.orderText) else "") ++ "\n"

/-- What is printed of a level that is number `count` of its side. -/
def entryLine (b : MEOrderBook) (title : String) (detailed : Bool) (y : LevelPtr × List OrderPtr) (count : Nat) : String :=
  title ++ " L:" ++ count.repr ++ " => " ++ b.levelText detailed y

/-- Each level once, with its number from the best one on. -/
def sideText (b : MEOrderBook) (title : String) (detailed : Bool) (l : List (LevelPtr × List OrderPtr)) : String :=
  .join (l.zipIdx.map fun yk => b.entryLine title detailed yk.1 yk.2)

def bookText (b : MEOrderBook) (tickerId : TickerId) (detailed : Bool) (asks bids : List (LevelPtr × List OrderPtr)) :
    String :=
  "Ticker:" ++ tickerIdToString tickerId ++ "\n" ++ b.sideText "ASKS" detailed asks ++
    "\n" ++ "                          X" ++ "\n" ++ "\n" ++ b.sideText "BIDS" detailed bids

/-- The prices of a side from the best one on. -/
abbrev prices (b : MEOrderBook) (l : List (LevelPtr × List OrderPtr)) : List Price := l.map fun y => b.levelPrice y.1

/-- The ask prices are strictly ascending and the bid prices strictly descending. -/
def Sorted (b : MEOrderBook) (asks bids : List (LevelPtr × List OrderPtr)) : Prop :=
  (b.prices asks).IsChain (Ahead .SELL) ∧ (b.prices bids).IsChain (Ahead .BUY)

instance (b : MEOrderBook) (asks bids : List (LevelPtr × List OrderPtr)) : Decidable (b.Sorted asks bids) :=
  inferInstanceAs (Decidable (_ ∧ _))

/-- The text of a level in a message: its own fields, its first order and the prices next to it. -/
def entryText (b : MEOrderBook) (y : LevelPtr × List OrderPtr) : String :=
  (b.ordersAtPricePool.get y.1).text
    (y.2.head?.elim "null" fun p => (b.orderPool.get p).text (b.idAt (b.prevOrder p)) (b.idAt (b.nextOrder p)))
    (b.priceAt (b.prevEntry y.1)) (b.priceAt (b.nextEntry y.1))

/-- The message for a level that is not behind the price before it. -/
def unsorted (b : MEOrderBook) (last : Price) (y : LevelPtr × List OrderPtr) : Fault :=
  .fatal ("Bids/Asks not sorted by ascending/descending prices last:" ++ priceToString last ++ " itr:" ++ b.entryText y)

/-! ## The order loops of `printer` -/

theorem order_of_block (hp : b.OrderBlock p) : order (some p) b = .ok (b.orderPool.get p) b :=
  order_ok.mpr ⟨p, rfl, hp.2, rfl, rfl⟩

theorem reads_orderIdOf (h : ∀ q ∈ itr, b.OrderBlock q) : Reads (orderIdOf itr) b (.ok (b.idAt itr)) := by
  cases itr with
  | none => exact .pure _
  | some q => exact .after (order_of_block (h q rfl)) (.pure _)

theorem reads_priceOf (h : ∀ ℓ ∈ entry, b.Block ℓ) : Reads (priceOf entry) b (.ok (b.priceAt entry)) := by
  cases entry with
  | none => exact .pure _
  | some ℓ => exact .after (level_of_block (h ℓ rfl)) (.pure _)

namespace OrderRing
variable (h : b.OrderRing ℓ ps)
include h

theorem length_le : ps.length ≤ ME_MAX_ORDER_IDS := length_le_of_lt h.nodup fun p hp => (h.blocks p hp).1

/-- The links of an order lead to orders of the ring. -/
theorem neighbours (hp : p ∈ ps) : (∀ q ∈ b.prevOrder p, b.OrderBlock q) ∧ ∀ q ∈ b.nextOrder p, b.OrderBlock q := by
  obtain ⟨⟨c, hc, hprev⟩, d, hd, hnext⟩ := h.links.links_mem hp
  rw [hprev, hnext]
  exact ⟨fun q hq => Option.some.inj hq ▸ h.blocks c hc, fun q hq => Option.some.inj hq ▸ h.blocks d hd⟩

/-- A loop over the orders of a level is a fold over their ring. -/
theorem reads_loop {γ : Type} (body : MEOrder → γ → BookM γ) (step : γ → OrderPtr → γ)
    (hbody : ∀ p ∈ ps, ∀ acc, Reads (body (b.orderPool.get p) acc) b (.ok (step acc p))) (acc : γ) :
    Reads (ordersLoop (b.ordersAtPricePool.get ℓ).firstMeOrder body ME_MAX_ORDER_IDS
      (b.ordersAtPricePool.get ℓ).firstMeOrder acc) b (.ok (ps.foldl step acc)) := by
  obtain ⟨first, m, hps⟩ := List.exists_cons_of_ne_nil h.nonempty
  have hhead : ps.head? = some first := by rw [hps]; rfl
  rw [h.first, hhead]
  have hloop := Reads.around (s := b) id (fun fuel p acc => ordersLoop (some first) body fuel (some p) acc)
    (fun acc p => .ok (step acc p)) (by rw [List.map_id]; exact h.links) (by rw [List.map_id]; exact h.nodup)
    (by rw [List.map_id]; exact hhead) h.length_le ?_ ?_ acc
  · rwa [show ps.foldlM (fun acc p => Except.ok (step acc p)) acc = .ok (ps.foldl step acc) from List.foldlM_pure] at hloop
  · intro p hp hnext fuel acc
    refine .after (order_of_block (h.blocks p hp)) (.after (hbody p hp acc) ?_)
    rw [if_pos hnext]
    exact .pure _
  · intro p hp c hnext hc fuel acc rest hrest
    refine .after (order_of_block (h.blocks p hp)) (.after (hbody p hp acc) ?_)
    have hne : b.nextOrder p ≠ some first := fun e => hc (Option.some.inj (hnext.symm.trans e))
    simp only [id_eq] at hnext ⊢
    rw [if_neg hne, show (b.orderPool.get p).nextOrder = some c from hnext]
    exact hrest _

end OrderRing

private theorem foldl_count (v : OrderPtr → Qty) (ps : List OrderPtr) (qty : Qty) (n : Nat) :
    ps.foldl (fun acc p => (acc.1 + v p, acc.2 + 1)) (qty, n) = (qty + (ps.map v).sum, n + ps.length) := by
  induction ps generalizing qty n with
  | nil => simp
  | cons p ps ih => rw [List.foldl_cons, ih, List.map_cons, List.sum_cons, List.length_cons, add_assoc, Nat.add_right_comm, Nat.add_assoc]

private theorem foldl_append {ι : Type} (v : ι → String) (l : List ι) (str : String) :
    l.foldl (fun acc y => acc ++ v y) str = str ++ .join (l.map v) := by
  induction l generalizing str with
  | nil => simp
  | cons y l ih => rw [List.foldl_cons, ih, List.map_cons, String.join_cons, String.append_assoc]

/-! ## The texts fit in their buffer -/

theorem reads_sprintf {text : String} (h : text.length < 4096) : Reads (sprintf text) b (.ok text) := by
  rw [sprintf, if_pos h]
  exact .pure _

theorem length_orderFormat_lt (marketOrderId : OrderId) (qty : Qty) (prev next : OrderId) :
    (orderFormat marketOrderId qty prev next).length < 4096 := by
  have hid := length_orderIdToString_le marketOrderId
  have hqty := length_qtyToString_le qty
  have hprev := length_orderIdToString_le prev
  have hnext := length_orderIdToString_le next
  have hlit : "[oid:".length + " q:".length + " p:".length + " n:".length + "] ".length = 16 := by decide
  simp only [orderFormat, String.length_append]
  omega

private theorem length_pad_le {text : String} {width n : Nat} (hw : width ≤ n) (ht : text.length ≤ n) :
    (String.leftpad width ' ' text).length ≤ n ∧ (String.rightpad width ' ' text).length ≤ n := by
  rw [String.length_leftpad, String.rightpad, String.length_append, String.length_replicate]
  omega

private theorem length_line_lt {px p n at' qty num : String} (hpx : px.length ≤ 20) (hp : p.length ≤ 20) (hn : n.length ≤ 20)
    (hat : at'.length ≤ 20) (hqty : qty.length ≤ 10) (hnum : num.length ≤ 7) :
    (" <px:" ++ px ++ " p:" ++ p ++ " n:" ++ n ++ "> " ++ at' ++ " @ " ++ qty ++ "(" ++ num ++ ")").length < 4096 := by
  have hlit : " <px:".length + " p:".length + " n:".length + "> ".length + " @ ".length + "(".length + ")".length = 18 := by
    decide
  simp only [String.length_append]
  omega

theorem length_levelFormat_lt (price prev next : Price) (qty : Qty) {numOrders : Nat} (h : numOrders ≤ ME_MAX_ORDER_IDS) :
    (levelFormat price prev next qty numOrders).length < 4096 := by
  have hmax : ME_MAX_ORDER_IDS < 10 ^ 7 := by norm_num [ME_MAX_ORDER_IDS]
  have hprice := length_pad_le (by decide : 3 ≤ 20) (length_priceToString_le price)
  have hprev := (length_pad_le (by decide : 3 ≤ 20) (length_priceToString_le prev)).1
  have hnext := (length_pad_le (by decide : 3 ≤ 20) (length_priceToString_le next)).1
  have hqty := (length_pad_le (by decide : 5 ≤ 10) (length_qtyToString_le qty)).2
  have hnum := (length_pad_le (by decide : 4 ≤ 7) ((Nat.length_repr_le_iff (by decide)).mpr (h.trans_lt hmax))).2
  exact length_line_lt hprice.1 hprev hnext hprice.2 hqty hnum

/-! ## One level -/

/-- What the end of `printer` comes to: a check that fails names the level. -/
def checked (b : MEOrderBook) (side : Side) (validityCheck : Bool) (last : Price) (y : LevelPtr × List OrderPtr) :
    Except Fault Price :=
  if validityCheck then if Ahead side last (b.levelPrice y.1) then .ok (b.levelPrice y.1) else .error (b.unsorted last y)
  else .ok last

/-- The end of the ring of `y` and the links of its level lead to blocks. -/
structure Printable (b : MEOrderBook) (y : LevelPtr × List OrderPtr) : Prop where
  block : b.Block y.1
  orders : b.OrderRing y.1 y.2
  prev : ∃ ℓ, b.prevEntry y.1 = some ℓ ∧ b.Block ℓ
  next : ∃ ℓ, b.nextEntry y.1 = some ℓ ∧ b.Block ℓ

theorem SideRings.printable {best : Option LevelPtr} (h : SideRings b best l) (hy : y ∈ l) : b.Printable y := by
  have hblocks : ∀ ℓ ∈ l.map Prod.fst, b.Block ℓ := fun ℓ hℓ => by
    obtain ⟨z, hz, rfl⟩ := List.mem_map.mp hℓ
    exact h.blocks z hz
  obtain ⟨⟨c, hc, hprev⟩, d, hd, hnext⟩ := h.links.links_mem (List.mem_map_of_mem hy)
  exact ⟨h.blocks y hy, h.orders y hy, ⟨c, hprev, hblocks c hc⟩, d, hnext, hblocks d hd⟩

namespace Printable
variable (h : b.Printable y)
include h

theorem reads_toString : Reads (b.ordersAtPricePool.get y.1).toString b (.ok (b.entryText y)) := by
  obtain ⟨p, m, hps⟩ := List.exists_cons_of_ne_nil h.orders.nonempty
  have hp : p ∈ y.2 := by rw [hps]; exact List.mem_cons_self ..
  have hfirst : (b.ordersAtPricePool.get y.1).firstMeOrder = some p := by rw [h.orders.first, hps]; rfl
  obtain ⟨hprev, hnext⟩ := h.orders.neighbours hp
  have horder : Reads (MEOrdersAtPrice.firstToString (some p)) b
      (.ok ((b.orderPool.get p).text (b.idAt (b.prevOrder p)) (b.idAt (b.nextOrder p)))) :=
    .after (order_of_block (h.orders.blocks p hp))
      (.after (reads_orderIdOf hprev) (.after (reads_orderIdOf hnext) (.pure _)))
  have hbefore : ∀ ℓ ∈ b.prevEntry y.1, b.Block ℓ := by
    obtain ⟨ℓ, hℓ, hb⟩ := h.prev
    rw [hℓ]
    exact fun e he => Option.some.inj he ▸ hb
  have hbehind : ∀ ℓ ∈ b.nextEntry y.1, b.Block ℓ := by
    obtain ⟨ℓ, hℓ, hb⟩ := h.next
    rw [hℓ]
    exact fun e he => Option.some.inj he ▸ hb
  unfold MEOrdersAtPrice.toString entryText
  rw [hfirst, hps]
  exact .after horder (.after (reads_priceOf hbefore) (.after (reads_priceOf hbehind) (.pure _)))

theorem reads_sanityCheck (hside : side = .BUY ∨ side = .SELL) (last : Price) (validityCheck : Bool) :
    Reads (sanityCheck (b.ordersAtPricePool.get y.1) side last validityCheck) b (b.checked side validityCheck last y) := by
  cases validityCheck with
  | false => exact .pure _
  | true =>
    have hiff : ((side = .SELL ∧ last ≥ b.levelPrice y.1) ∨ (side = .BUY ∧ last ≤ b.levelPrice y.1)) ↔
        ¬ Ahead side last (b.levelPrice y.1) := by
      rcases hside with rfl | rfl
      · rw [ahead_buy, Int64.not_lt]
        simp
      · rw [ahead_sell, Int64.not_lt]
        simp
    unfold sanityCheck checked
    rw [if_pos rfl]
    by_cases ha : Ahead side last (b.levelPrice y.1)
    · rw [if_neg (fun e => hiff.mp e ha), if_pos ha]
      exact .pure _
    · rw [if_pos (hiff.mpr ha), if_neg ha]
      exact .after h.reads_toString (.throw _)

theorem reads_printOrders (detailed : Bool) (str : String) :
    Reads (ordersLoop (b.ordersAtPricePool.get y.1).firstMeOrder (printOrder detailed) ME_MAX_ORDER_IDS
      (b.ordersAtPricePool.get y.1).firstMeOrder str) b
      (.ok (str ++ if detailed then .join (y.2.map b.orderText) else "")) := by
  cases detailed with
  | false =>
    have hloop := h.orders.reads_loop (printOrder false) (fun str _ => str) (fun _ _ _ => .pure _) str
    rw [List.foldl_fixed] at hloop
    rw [if_neg Bool.false_ne_true, String.append_empty]
    exact hloop
  | true =>
    have hloop := h.orders.reads_loop (printOrder true) (fun str p => str ++ b.orderText p) ?_ str
    · rw [foldl_append] at hloop
      rw [if_pos rfl]
      exact hloop
    · intro p hp str
      obtain ⟨hprev, hnext⟩ := h.orders.neighbours hp
      exact .after (reads_orderIdOf hprev) (.after (reads_orderIdOf hnext)
        (.after (reads_sprintf (length_orderFormat_lt _ _ _ _)) (.pure _)))

theorem reads_printer (hside : side = .BUY ∨ side = .SELL) (detailed validityCheck : Bool) (str : String) (last : Price) :
    Reads (printer detailed str (some y.1) side last validityCheck) b
      (b.checked side validityCheck last y >>= fun price => .ok (price, str ++ b.levelText detailed y)) := by
  obtain ⟨ℓ, hℓ, hb⟩ := h.prev
  obtain ⟨ℓ', hℓ', hb'⟩ := h.next
  have hprev : level (b.prevEntry y.1) b = .ok (b.ordersAtPricePool.get ℓ) b := by rw [hℓ, level_of_block hb]
  have hnext : level (b.nextEntry y.1) b = .ok (b.ordersAtPricePool.get ℓ') b := by rw [hℓ', level_of_block hb']
  have hcount := h.orders.reads_loop countOrder (fun acc p => (acc.1 + (b.orderPool.get p).qty, acc.2 + 1))
    (fun _ _ _ => .pure _) (0, 0)
  rw [foldl_count (fun p => (b.orderPool.get p).qty), zero_add, Nat.zero_add] at hcount
  refine .after (level_of_block h.block) (.after hcount (.after hprev (.after hnext ?_)))
  refine .after (reads_sprintf (length_levelFormat_lt _ _ _ _ h.orders.length_le)) ?_
  refine .after (h.reads_printOrders detailed _) (.bind (h.reads_sanityCheck hside last validityCheck) fun price _ => ?_)
  rw [levelText, hℓ, hℓ']
  simp only [String.append_assoc]
  exact .pure _

end Printable

/-! ## One side -/

/-- The `count` and the stream behind a level. -/
def withEntry (b : MEOrderBook) (title : String) (detailed : Bool) (acc : Nat × String) (y : LevelPtr × List OrderPtr) : Nat × String :=
  (acc.1 + 1, acc.2 ++ b.entryLine title detailed y acc.1)

/-- What a turn of the loop over the levels comes to. -/
def turn (b : MEOrderBook) (title : String) (side : Side) (detailed validityCheck : Bool) (acc : Price × Nat × String)
    (y : LevelPtr × List OrderPtr) : Except Fault (Price × Nat × String) :=
  b.checked side validityCheck acc.1 y >>= fun price => .ok (price, b.withEntry title detailed acc.2 y)

theorem foldl_withEntry (title : String) (detailed : Bool) (count : Nat) (ss : String) :
    l.foldl (b.withEntry title detailed) (count, ss) =
      (count + l.length, ss ++ .join ((l.zipIdx count).map fun yk => b.entryLine title detailed yk.1 yk.2)) := by
  induction l generalizing count ss with
  | nil => simp
  | cons y l ih =>
    rw [List.foldl_cons, withEntry, ih, List.zipIdx_cons, List.map_cons, String.join_cons, List.length_cons, String.append_assoc,
      Nat.add_right_comm, Nat.add_assoc]

/-- A turn prints its title and its number in front of what `printer` adds. -/
theorem turn_eq (title : String) (side : Side) (detailed validityCheck : Bool) (last : Price) (count : Nat) (ss : String) :
    b.turn title side detailed validityCheck (last, count, ss) y =
      (b.checked side validityCheck last y >>= fun price =>
        .ok (price, ss ++ title ++ " L:" ++ count.repr ++ " => " ++ b.levelText detailed y)) >>= fun r => .ok (r.1, count + 1, r.2) := by
  rw [turn, withEntry, entryLine, bind_assoc]
  simp only [String.append_assoc]
  rfl

/-- With the validity check on, the levels are scanned for their order. -/
theorem turn_true (title : String) (side : Side) (detailed : Bool) : b.turn title side detailed true =
    check (Ahead side) (fun y => b.levelPrice y.1) (b.withEntry title detailed) b.unsorted := by
  funext acc y
  rw [turn, checked, if_pos rfl, check]
  split_ifs <;> rfl

theorem levelsLoop_none (title : String) (side : Side) (detailed validityCheck : Bool) (best : Option LevelPtr) (fuel : Nat)
    (acc : Price × Nat × String) : Reads (levelsLoop title side detailed validityCheck best fuel none acc) b (.ok acc) := by
  cases fuel <;> exact .pure _

namespace SideRings
variable {best : Option LevelPtr} (h : SideRings b best l) (hside : side = .BUY ∨ side = .SELL) (title : String) (detailed : Bool)
include h hside

/-- The loop over the levels of a side is a fold over their ring. -/
theorem reads_loop (validityCheck : Bool) (acc : Price × Nat × String) :
    Reads (levelsLoop title side detailed validityCheck best ME_MAX_PRICE_LEVELS best acc) b
      (l.foldlM (b.turn title side detailed validityCheck) acc) := by
  rcases hl : l with _ | ⟨first, m⟩
  · rw [h.head, hl]
    exact levelsLoop_none title side detailed validityCheck none _ acc
  · have hhead : (l.map Prod.fst).head? = some first.1 := by rw [hl]; rfl
    have hlen : l.length ≤ ME_MAX_PRICE_LEVELS := by
      have hlen := length_le_of_lt h.nodup fun ℓ hℓ => by
        obtain ⟨y, hy, rfl⟩ := List.mem_map.mp hℓ
        exact (h.blocks y hy).1
      rwa [List.length_map] at hlen
    rw [h.head, hhead, ← hl]
    refine Reads.around Prod.fst (fun fuel ℓ acc => levelsLoop title side detailed validityCheck (some first.1) fuel (some ℓ) acc)
      _ h.links h.nodup hhead hlen ?_ ?_ acc
    · rintro y hy hnext fuel ⟨last, count, ss⟩
      rw [turn_eq]
      refine .after (level_of_block (h.blocks y hy)) (.bind ((h.printable hy).reads_printer hside detailed validityCheck _ last) ?_)
      rintro ⟨price, ss⟩ -
      have hend : (b.ordersAtPricePool.get y.1).nextEntry = some first.1 := hnext
      rw [if_pos hend]
      exact levelsLoop_none title side detailed validityCheck _ fuel _
    · rintro y hy c hnext hc fuel ⟨last, count, ss⟩ rest hrest
      rw [turn_eq, bind_assoc]
      refine .after (level_of_block (h.blocks y hy)) (.bind ((h.printable hy).reads_printer hside detailed validityCheck _ last) ?_)
      rintro ⟨price, ss⟩ -
      have hgo : (b.ordersAtPricePool.get y.1).nextEntry = some c := hnext
      have hne : some c ≠ some first.1 := fun e => hc (Option.some.inj e)
      rw [hgo, if_neg hne]
      exact hrest _

variable {start : Price}

/-- A side in order behind the price that the check starts from is printed level by level... -/
theorem loop_sorted (hs : (start :: b.prices l).IsChain (Ahead side)) (ss : String) :
    Reads (levelsLoop title side detailed true best ME_MAX_PRICE_LEVELS best (start, 0, ss)) b
      (.ok ((b.prices l).getLastD start, l.length, ss ++ b.sideText title detailed l)) := by
  have hloop := h.reads_loop hside title detailed true (start, 0, ss)
  rw [turn_true, scan_of_chain hs, foldl_withEntry, Nat.zero_add] at hloop
  exact hloop

/-- ... and any other one only up to the first level that is out of order. -/
theorem loop_unsorted (hs : ¬ (start :: b.prices l).IsChain (Ahead side)) :
    ∃ l₁ y l₂, l = l₁ ++ y :: l₂ ∧ (start :: b.prices l₁).IsChain (Ahead side) ∧
      ¬ Ahead side ((b.prices l₁).getLastD start) (b.levelPrice y.1) ∧
      ∀ ss, Reads (levelsLoop title side detailed true best ME_MAX_PRICE_LEVELS best (start, 0, ss)) b
        (.error (b.unsorted ((b.prices l₁).getLastD start) y)) := by
  obtain ⟨l₁, y, l₂, hl, hl₁, hy, he⟩ := scan_of_not_chain hs
  refine ⟨l₁, y, l₂, hl, hl₁, hy, fun ss => ?_⟩
  have hloop := h.reads_loop hside title detailed true (start, 0, ss)
  rw [turn_true, he] at hloop
  exact hloop

end SideRings

/-! ## The book -/

/-- The check starts from the lowest price of the type for the asks and the highest one for the bids. -/
def Passes (b : MEOrderBook) (asks bids : List (LevelPtr × List OrderPtr)) : Prop :=
  (Int64.minValue :: b.prices asks).IsChain (Ahead .SELL) ∧ (Int64.maxValue :: b.prices bids).IsChain (Ahead .BUY)

namespace BookRings
variable (h : BookRings b asks bids) (tickerId : TickerId) (detailed : Bool)
include h

theorem toString_passes (hp : b.Passes asks bids) :
    Reads (toString tickerId detailed true) b (.ok (b.bookText tickerId detailed asks bids)) := by
  refine .after (a := b) rfl (.after (h.asks.loop_sorted (.inr rfl) "ASKS" detailed hp.1 _) ?_)
  exact .after (a := b) rfl (.after (h.bids.loop_sorted (.inl rfl) "BIDS" detailed hp.2 _) (.pure _))

theorem toString_refused (hn : ¬ b.Passes asks bids) :
    ∃ last, ∃ y ∈ asks ++ bids, Reads (toString tickerId detailed true) b (.error (b.unsorted last y)) := by
  by_cases ha : (Int64.minValue :: b.prices asks).IsChain (Ahead .SELL)
  · have hb : ¬ (Int64.maxValue :: b.prices bids).IsChain (Ahead .BUY) := fun hb => hn ⟨ha, hb⟩
    obtain ⟨l₁, y, l₂, hl, -, -, he⟩ := h.bids.loop_unsorted (.inl rfl) "BIDS" detailed hb
    refine ⟨(b.prices l₁).getLastD Int64.maxValue, y, by simp [hl], ?_⟩
    refine .after (a := b) rfl (.after (h.asks.loop_sorted (.inr rfl) "ASKS" detailed ha _) ?_)
    exact .after (a := b) rfl (.stops (he _))
  · obtain ⟨l₁, y, l₂, hl, -, -, he⟩ := h.asks.loop_unsorted (.inr rfl) "ASKS" detailed ha
    exact ⟨_, y, by simp [hl], .after (a := b) rfl (.stops (he _))⟩

/-- The price that the check starts from is refused as a best price, and so is a side out of order. -/
theorem passes_iff : b.Passes asks bids ↔ b.Sorted asks bids ∧ (∀ ℓ ∈ b.asksAtPrice, b.levelPrice ℓ ≠ Int64.minValue) ∧
    ∀ ℓ ∈ b.bidsAtPrice, b.levelPrice ℓ ≠ Int64.maxValue := by
  have hlow : ∀ price : Price, Ahead .SELL Int64.minValue price ↔ price ≠ Int64.minValue := fun price => by
    have hle := price.minValue_le_toInt
    rw [ahead_sell, Int64.lt_iff_toInt_lt, ne_eq, ← Int64.toInt_inj]
    omega
  have hhigh : ∀ price : Price, Ahead .BUY Int64.maxValue price ↔ price ≠ Int64.maxValue := fun price => by
    have hle := price.toInt_le
    rw [ahead_buy, Int64.lt_iff_toInt_lt, ne_eq, ← Int64.toInt_inj]
    omega
  have hbest : ∀ {best l} (start : Price), SideRings b best l →
      ((b.prices l).head? ≠ some start ↔ ∀ ℓ ∈ best, b.levelPrice ℓ ≠ start) := fun {best l} start hs => by
    rw [hs.head]
    cases l <;> simp
  rw [Passes, chain_start_iff hlow, chain_start_iff hhigh, hbest _ h.asks, hbest _ h.bids, Sorted]
  exact and_and_and_comm

end BookRings

/-- What the validity check promises of a book with the given rings. It comes to an end; it leaves the
process if and only if a side is not sorted; and otherwise each level is printed once, from the best one
on, with the number of its orders and, if asked for, each of them once. -/
structure ChecksExactly (b : MEOrderBook) (tickerId : TickerId) (detailed : Bool) (asks bids : List (LevelPtr × List OrderPtr)) :
    Prop where
  ends : (∃ text, toString tickerId detailed true b = .ok text b) ∨
    ∃ message, toString tickerId detailed true b = .error (.fatal message) b
  fatal : (∃ message, toString tickerId detailed true b = .error (.fatal message) b) ↔ ¬ b.Sorted asks bids
  prints : (¬ ∃ message, toString tickerId detailed true b = .error (.fatal message) b) →
    toString tickerId detailed true b = .ok (b.bookText tickerId detailed asks bids) b

/-- The check is exact for every book but the sorted ones with an ask at the lowest price of the type or a
bid at the highest one, which it refuses. -/
theorem toString_exact_iff (h : BookRings b asks bids) (tickerId : TickerId) (detailed : Bool) :
    ChecksExactly b tickerId detailed asks bids ↔ ¬ b.Sorted asks bids ∨
      ((∀ ℓ ∈ b.asksAtPrice, b.levelPrice ℓ ≠ Int64.minValue) ∧ ∀ ℓ ∈ b.bidsAtPrice, b.levelPrice ℓ ≠ Int64.maxValue) := by
  by_cases hp : b.Passes asks bids
  · have htext : toString tickerId detailed true b = .ok (b.bookText tickerId detailed asks bids) b :=
      h.toString_passes tickerId detailed hp
    have hfatal : ¬ ∃ message, toString tickerId detailed true b = .error (.fatal message) b := by
      rintro ⟨message, he⟩
      rw [htext] at he
      cases he
    obtain ⟨hs, hbest⟩ := h.passes_iff.mp hp
    refine ⟨fun _ => .inr hbest, fun _ => ⟨.inl ⟨_, htext⟩, ?_, fun _ => htext⟩⟩
    exact ⟨fun he => absurd he hfatal, fun hn => absurd hs hn⟩
  · obtain ⟨last, y, -, he⟩ := h.toString_refused tickerId detailed hp
    have hfatal : ∃ message, toString tickerId detailed true b = .error (.fatal message) b := ⟨_, he⟩
    constructor
    · exact fun hc => .inl (hc.fatal.mp hfatal)
    · rintro (hs | hbest)
      · exact ⟨.inr hfatal, ⟨fun _ => hs, fun _ => hfatal⟩, fun hn => absurd hfatal hn⟩
      · have hs : ¬ b.Sorted asks bids := fun hs => hp (h.passes_iff.mpr ⟨hs, hbest⟩)
        exact ⟨.inr hfatal, ⟨fun _ => hs, fun _ => hfatal⟩, fun hn => absurd hfatal hn⟩

/-- A book with two orders to sell at 100 and one at 99, which is printed first. -/
theorem toString_exact_threeAsks : ∃ b, Reaches call (fun _ _ => True) (fresh true)
      [.add 1 2 0 .SELL 100 10, .add 2 2 0 .SELL 100 5, .add 1 3 0 .SELL 99 4] b ∧
    ChecksExactly b 0 true [(1, [2]), (0, [0, 1])] [] := by
  obtain ⟨b, hrun, hrings, hasks, hbids⟩ : ∃ b, Reaches call (fun _ _ => True) (fresh true)
      [.add 1 2 0 .SELL 100 10, .add 2 2 0 .SELL 100 5, .add 1 3 0 .SELL 99 4] b ∧
        b.BookRings [(1, [2]), (0, [0, 1])] [] ∧ (∀ ℓ ∈ b.asksAtPrice, b.levelPrice ℓ ≠ Int64.minValue) ∧
        ∀ ℓ ∈ b.bidsAtPrice, b.levelPrice ℓ ≠ Int64.maxValue :=
    exists_run true _ _ (by decide +kernel)
  exact ⟨b, hrun, (toString_exact_iff hrings 0 true).mpr (.inr ⟨hasks, hbids⟩)⟩

/-- One order to sell at the lowest price makes a book that the check refuses as not sorted. -/
theorem toString_refuses_lowestAsk : ∃ b, Reaches call (fun _ _ => True) (fresh true)
      [.add 1 2 0 .SELL Int64.minValue 10] b ∧ BookRings b [(0, [0])] [] ∧ b.Sorted [(0, [0])] [] ∧
    (∃ message, toString 0 true true b = .error (.fatal message) b) ∧ ¬ ChecksExactly b 0 true [(0, [0])] [] := by
  obtain ⟨b, hrun, hrings, hsorted, hasks, hprice⟩ : ∃ b, Reaches call (fun _ _ => True) (fresh true)
      [.add 1 2 0 .SELL Int64.minValue 10] b ∧ b.BookRings [(0, [0])] [] ∧ b.Sorted [(0, [0])] [] ∧
        b.asksAtPrice = some 0 ∧ b.levelPrice 0 = Int64.minValue :=
    exists_run true _ _ (by decide +kernel)
  have hpass : ¬ b.Passes [(0, [0])] [] := fun hp => (hrings.passes_iff.mp hp).2.1 0 hasks hprice
  obtain ⟨last, y, -, he⟩ := hrings.toString_refused 0 true hpass
  have hfatal : ∃ message, toString 0 true true b = .error (.fatal message) b := ⟨_, he⟩
  exact ⟨b, hrun, hrings, hsorted, hfatal, fun hc => hc.fatal.mp hfatal hsorted⟩

end MEOrderBook
end TradingEcosystem
