import TradingEcosystem.OrderBook.Rings
import TradingEcosystem.Library.KeyedTable

/-! The market updates of a book, as a subscriber replays them: a table by order id that
shows the resting orders. -/
namespace TradingEcosystem.MEOrderBook
open Program Runs KeyedTable
variable {b b' : MEOrderBook} {ring : Slot → List OrderPtr} {rs : List Request} {n : Nat}

/-- What a subscriber keeps of an order. -/
structure Row where
  side : Side
  price : Price
  qty : Qty
  priority : Priority
  deriving DecidableEq

def row (b : MEOrderBook) (p : OrderPtr) : Row :=
  let o := b.orderPool.get p
  ⟨o.side, o.price, o.qty, o.priority⟩

def idOf (b : MEOrderBook) (p : OrderPtr) : OrderId := (b.orderPool.get p).marketOrderId

/-- The change of a subscriber's table that an update asks for. -/
def change (u : MEMarketUpdate) : Change OrderId Row :=
  match u.type with
  | .ADD => .insert u.orderId ⟨u.side, u.price, u.qty, u.priority⟩
  | .MODIFY => .adjust u.orderId fun r => { r with qty := u.qty }
  | .CANCEL => .delete u.orderId
  | _ => .pass

/-- The table after the updates, if none of them adds an id that is held or changes or
deletes one that is not. -/
def subscriber (us : List (Report MEMarketUpdate)) : Option (OrderId → Option Row) :=
  replay (us.map fun u => change u.msg)

/-- The subscribers are up to date. -/
def Shown (b : MEOrderBook) : Prop :=
  ∃ t, subscriber b.marketUpdates = some t ∧ Shows t b.orderPool.Live b.idOf b.row

private theorem shown_step {us : List (Report MEMarketUpdate)} {c : Change OrderId Row}
    {t t' : OrderId → Option Row} (ht : subscriber b.marketUpdates = some t)
    (hu : b'.marketUpdates = b.marketUpdates ++ us) (hc : (us.map fun u => change u.msg).foldlM Change.apply t = c.apply t)
    (h' : c.apply t = some t' ∧ Shows t' b'.orderPool.Live b'.idOf b'.row) : Shown b' := by
  refine ⟨t', ?_, h'.2⟩
  rw [subscriber, hu, List.map_append, replay_append ht, hc, h'.1]

/-- Messages about a removal: the order goes from the table. -/
private theorem shown_removed {p : OrderPtr} {us : List (Report MEMarketUpdate)} (hs : Shown b)
    (hlive : b.orderPool.Live p) (hrem : ∀ q, b'.orderPool.Live q ↔ q ≠ p ∧ b.orderPool.Live q)
    (hid : ∀ q, b'.idOf q = b.idOf q) (hrow : ∀ q ≠ p, b'.row q = b.row q)
    (hu : b'.marketUpdates = b.marketUpdates ++ us)
    (hc : ∀ t, (us.map fun u => change u.msg).foldlM Change.apply t = (Change.delete (b.idOf p)).apply t) :
    Shown b' := by
  obtain ⟨t, ht, hsh⟩ := hs
  obtain ⟨t', ht'⟩ := hsh.delete hlive hrem (fun q _ => hid q) (fun q _ hq => hrow q hq)
  exact shown_step ht hu (hc t) ht'

private theorem row_filled {x : Incoming} {p q : OrderPtr} {leaves : Qty} :
    (b.filled x p leaves).row q = if q = p then { b.row p with qty := (b.orderPool.get p).qty - b.fillQty p leaves }
      else b.row q := by
  rw [row, get_filled]
  split_ifs with h
  · rfl
  · rfl

private theorem changes_part {x : Incoming} {o : MEOrder} {leaves : Qty} (hq : o.qty - min leaves o.qty ≠ 0)
    (t : OrderId → Option Row) : ((fillUpdates x o leaves).map fun u => change u.msg).foldlM Change.apply t =
      (Change.adjust o.marketOrderId fun r => { r with qty := o.qty - min leaves o.qty }).apply t := by
  simp only [fillUpdates, if_neg hq]
  exact Option.bind_fun_some _

private theorem changes_full {x : Incoming} {o : MEOrder} {leaves : Qty} (hq : o.qty - min leaves o.qty = 0)
    (t : OrderId → Option Row) : ((fillUpdates x o leaves).map fun u => change u.msg).foldlM Change.apply t =
      (Change.delete o.marketOrderId).apply t := by
  simp only [fillUpdates, if_pos hq]
  exact Option.bind_fun_some _

/-- Subscribers are up to date between calls and at every turn of the matching. -/
theorem keeps_shown : Keeps (fun b _ => b.issued.length + 1 < 2 ^ 64)
    fun b ring phase => b.strict = true ∧ Arriving b ring phase ∧ Shown b where
  accept hb hk hg hx := ⟨hk.1, keeps_arriving.accept hb hk.2.1 hg hx, hk.2.2⟩
  fill := by
    rintro b ring x leaves p hb ⟨hstrict, ha, t, ht, hsh⟩ hside hturn hq
    refine ⟨hstrict, keeps_arriving.fill hb ha hside hturn hq, ?_⟩
    have hadj : ∃ t', (Change.adjust (b.idOf p) fun r : Row =>
        { r with qty := (b.orderPool.get p).qty - b.fillQty p leaves }).apply t = some t' ∧
        Shows t' (b.filled x p leaves).orderPool.Live (b.filled x p leaves).idOf (b.filled x p leaves).row :=
      hsh.adjust (hturn.checked hstrict) (fun q => live_filled x q) (fun q _ => view_filled x q MEOrder.marketOrderId)
        (fun q _ hqp => by rw [row_filled, if_neg hqp]) (by rw [row_filled, if_pos rfl])
    obtain ⟨t', ht'⟩ := hadj
    exact shown_step ht rfl (changes_part hq t) ht'
  fillAll := by
    rintro b ring x leaves p b' hb ⟨hstrict, ha, hsh⟩ hside hturn hq hrem hr hb'
    have hj := hr.journal
    simp only [journal, Prod.mk.injEq] at hj
    refine ⟨by rw [hj.2.2.2.2.2]; exact hstrict, keeps_arriving.fillAll hb ha hside hturn hq hrem hr hb', ?_⟩
    refine shown_removed (p := p) hsh (hturn.checked hstrict) (fun q => by rw [hr.live_iff, live_filled])
      (fun q => ?_) (fun q hqp => ?_) hj.2.1 (changes_full hq)
    · exact (view_of_content MEOrder.marketOrderId (hr.content q)).trans (view_filled x q MEOrder.marketOrderId)
    · have hv : b'.row q = (b.filled x p leaves).row q :=
        view_of_content (fun o => (⟨o.side, o.price, o.qty, o.priority⟩ : Row)) (hr.content q)
      rw [hv, row_filled, if_neg hqp]
  done hb hk := ⟨hk.1, keeps_arriving.done hb hk.2.1, hk.2.2⟩
  rest := by
    rintro b ring x leaves p b₁ s o hb ⟨hstrict, ha, t, ht, hsh⟩ hne hex hs ho hpl hadd hb₁
    have hj := hadd.journal
    simp only [journal, Prod.mk.injEq] at hj
    refine ⟨hj.2.2.2.2.2.trans hstrict, keeps_arriving.rest hb ha hne hex hs ho hpl hadd hb₁, ?_⟩
    obtain ⟨-, -, -, hid, harr⟩ := ha
    have hkey : (b₁.indexed p o).idOf p = x.id := by
      rw [idOf, hadd.view MEOrder.marketOrderId, ho]; rfl
    have hrow : (b₁.indexed p o).row p = ⟨x.side, x.price, leaves, o.priority⟩ := by
      rw [row, hadd.view (fun o => (⟨o.side, o.price, o.qty, o.priority⟩ : Row)), ho]; rfl
    have hins : ∃ t', (Change.insert ((b₁.indexed p o).idOf p) ((b₁.indexed p o).row p)).apply t = some t' ∧
        Shows t' (b₁.indexed p o).orderPool.Live (b₁.indexed p o).idOf (b₁.indexed p o).row := by
      refine hsh.insert (fun q hq e => ?_) hadd.live_iff
        (fun q hq => view_of_content MEOrder.marketOrderId (hadd.content q (hadd.ne hq)))
        (fun q hq => view_of_content (fun o => (⟨o.side, o.price, o.qty, o.priority⟩ : Row)) (hadd.content q (hadd.ne hq)))
      -- the drawn id is larger than that of any order in the book
      have hle := (harr.bound q hq).1
      rw [hkey, idOf] at e
      rw [e, hid] at hle
      omega
    obtain ⟨t', ht'⟩ := hins
    refine shown_step ht (by rw [reportUpdates_marketUpdates, hj.2.1]) ?_ ht'
    rw [hkey, hrow]
    exact Option.bind_fun_some _
  reject hb hk hg := ⟨hk.1, keeps_arriving.reject hb hk.2.1 hg, hk.2.2⟩
  cancel := by
    rintro b ring clientId orderId tickerId p b₁ hb ⟨hstrict, ha, hsh⟩ hg hp hrem hr hb₁
    have hj := hr.journal
    simp only [journal, Prod.mk.injEq] at hj
    refine ⟨hj.2.2.2.2.2.trans hstrict, keeps_arriving.cancel hb ha hg hp hrem hr hb₁, ?_⟩
    refine shown_removed (p := p) hsh hr.live hr.live_iff (fun q => ?_) (fun q _ => ?_)
      (by rw [canceled, reportResponses_marketUpdates, reportUpdates_marketUpdates, hj.2.1]) fun t => by exact Option.bind_fun_some _
    · exact view_of_content MEOrder.marketOrderId (hr.content q)
    · exact view_of_content (fun o => (⟨o.side, o.price, o.qty, o.priority⟩ : Row)) (hr.content q)

/-- After every run of fewer than 2^64 requests that never follows a null or freed
pointer, the updates replay, and the table shows exactly the resting orders. -/
theorem run_marketData (h : Reaches call (fun _ _ => True) (fresh true) rs b) (hlen : rs.length < 2 ^ 64) :
    ∃ t, subscriber b.marketUpdates = some t ∧
      (∀ p q, b.Resting p → b.Resting q → b.idOf p = b.idOf q → p = q) ∧
      ∀ id r, t id = some r ↔ ∃ p, b.Resting p ∧ b.idOf p = id ∧ b.row p = r := by
  have hrun : Reaches call (fun b _ => b.issued.length + 1 < 2 ^ 64) (fresh true) rs b :=
    (run_unwrapped h hlen).mono fun _ _ hg => hg.2
  have hfresh : Shown (fresh true) :=
    ⟨fun _ => none, rfl, shows_nothing fun p hp => by simp [fresh, MemPool.Live, MemPool.ofSize] at hp⟩
  obtain ⟨ring, hb, -, -, t, ht, hsh⟩ := keeps_shown.run ⟨rfl, arriving_fresh true, hfresh⟩ hrun
  refine ⟨t, ht, fun p q hp hq => ?_, fun id r => ?_⟩
  · rw [hb.resting_iff] at hp hq
    exact hsh.inj p q hp hq
  · simp only [hb.resting_iff]
    exact hsh.rows id r

/-- A sweep over two levels, a remainder that rests and a cancel. -/
def sweep : List Request :=
  [.add 0 0 0 .SELL 100 5, .add 1 1 0 .SELL 101 7, .add 2 2 0 .BUY 101 8, .add 3 3 0 .BUY 99 4, .cancel 3 3 0]

theorem run_marketData_sweep : ∃ b, Reaches call (fun _ _ => True) (fresh true) sweep b ∧
    ∃ t, subscriber b.marketUpdates = some t ∧
      (∀ p q, b.Resting p → b.Resting q → b.idOf p = b.idOf q → p = q) ∧
      ∀ id r, t id = some r ↔ ∃ p, b.Resting p ∧ b.idOf p = id ∧ b.row p = r := by
  obtain ⟨b, hrun, -⟩ := exists_run true sweep (fun _ => True) (by decide +kernel)
  exact ⟨b, hrun, run_marketData hrun (by decide)⟩

/-- Where ids have wrapped around, a second order is added under the id of the first. -/
private theorem wrapped_id_twice (n : Nat) (hn : UInt64.ofNat (n + 2) = 1) :
    ∃ b, Reaches call (fun _ _ => True) (fresh true)
      (([.add 0 0 0 .SELL 100 5] ++ List.replicate n (.add 0 0 0 .BUY 0 0)) ++ [.add 1 1 0 .SELL 100 5]) b ∧
      subscriber b.marketUpdates = none := by
  obtain ⟨b, hrun, hlive, hnext, hroom, hslot, hlen, hus⟩ := exists_run true [.add 0 0 0 .SELL 100 5]
    (fun b => ¬ b.orderPool.Live b.orderPool.nextFreeIndex ∧ ¬ b.orderPool.Live (b.orderPool.nextFreeIndex + 1) ∧
      b.orderPool.nextFreeIndex + 1 < b.orderPool.size ∧ b.priceOrdersAtPriceHashMap (priceToIndex 100) = some 0 ∧
      b.issued.length = 1 ∧ b.marketUpdates =
        [⟨some 0, { type := .ADD, orderId := 1, tickerId := 0, side := .SELL, price := 100, qty := 5, priority := 1 }⟩])
    (by decide +kernel)
  obtain ⟨b₁, hrun₁, hhold, hlen₁⟩ := run_emptyAdds hrun n
  simp only [holdings, Prod.mk.injEq] at hhold
  obtain ⟨hpool, -, hslots, -, -, -, hups, -⟩ := hhold
  obtain ⟨⟨ring, hb₁⟩, hbids⟩ := run_heap hrun₁
  have hid : b₁.nextMarketOrderId = 1 := by
    rw [(run_counted hrun₁).1.2, hlen₁, hlen, ← hn]
    congr 1
    omega
  obtain ⟨x, hx⟩ : ∃ x, x = b₁.incoming 1 1 0 .SELL 100 := ⟨_, rfl⟩
  have hm : x.matching 5 (b₁.accepted x 5) = .ok 5 (b₁.accepted x 5) :=
    matching_idle hbids (.inl (by rw [hx]; exact Side.sell_ne_buy))
  have hrest : ∃ b₂, x.rest 5 (b₁.accepted x 5) = .ok () b₂ := by
    rw [hx]
    have hs : (b₁.accepted (b₁.incoming 1 1 0 .SELL 100) 5).priceOrdersAtPriceHashMap (priceToIndex 100) = some 0 := by
      rw [accepted_priceOrdersAtPriceHashMap, hslots]
      exact hslot
    refine rest_of_level (heap_accepted hb₁ _ _) hs (by simp only [incoming]; decide) ?_ ?_ ?_
    · rw [accepted_orderPool, hpool]; exact hlive
    · rw [accepted_orderPool, hpool]; exact hnext
    · rw [accepted_orderPool, hpool]; exact hroom
  obtain ⟨b₂, hrest⟩ := hrest
  refine ⟨b₂, .call hrun₁ trivial ?_, ?_⟩
  · rw [call, add_apply hx, bind_of_ok hm, if_pos (by decide), hrest]
  · obtain ⟨p, b₃, s, o, -, -, -, hadd, -, rfl⟩ := rest_ok (heap_accepted hb₁ _ _) hrest
    have hj := hadd.journal
    simp only [journal, Prod.mk.injEq, accepted_marketUpdates] at hj
    rw [reportUpdates_marketUpdates, hj.2.1, hups, hus, hx]
    simp only [incoming, hid]
    rfl

/-- After 2^64 requests, one sell and then adds of nothing, the next order gets id 1 again. -/
theorem wrapped_id_breaks_replay : ∃ b, Reaches call (fun _ _ => True) (fresh true)
    (([.add 0 0 0 .SELL 100 5] ++ List.replicate 18446744073709551615 (.add 0 0 0 .BUY 0 0)) ++
      [.add 1 1 0 .SELL 100 5]) b ∧ subscriber b.marketUpdates = none :=
  wrapped_id_twice 18446744073709551615 (by decide)

end TradingEcosystem.MEOrderBook
