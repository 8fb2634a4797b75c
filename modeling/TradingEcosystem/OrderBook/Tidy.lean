import TradingEcosystem.OrderBook.Walk

/-! Books whose levels hold orders of one side each. Levels are found by `price % 256`
alone, so requests decide whether a book stays like this. -/
namespace TradingEcosystem.MEOrderBook
open Program Runs LinkedRing
variable {priced : Side → Prop} {b b' : MEOrderBook} {ring : Slot → List OrderPtr} {l : List LevelPtr} {s : Slot} {p q : OrderPtr}
  {ℓ : LevelPtr} {u : Unit} {x : Incoming} {leaves qty : Qty} {limit : Price}

/-- The orders of one level have its side, and its price if `priced` asks so of their side. -/
structure Tidy (priced : Side → Prop) (b : MEOrderBook) (l : List LevelPtr) : Prop extends Levels b l where
  pure : ∀ p ℓ, b.orderPool.Live p → b.priceOrdersAtPriceHashMap (b.slotOf p) = some ℓ →
    (b.orderPool.get p).side = b.levelSide ℓ ∧
      (priced (b.orderPool.get p).side → (b.orderPool.get p).price = b.levelPrice ℓ)

theorem tidy_fresh (priced : Side → Prop) (strict : Bool) : Tidy priced (fresh strict) [] where
  bids := rfl
  asks := ⟨rfl, .nil, .nil, .nil, by simp⟩
  live := by simp
  mem ℓ h := by simp [fresh, MemPool.Live, MemPool.ofSize] at h
  lone ℓ h := by simp [fresh, MemPool.Live, MemPool.ofSize] at h
  sides ℓ h := by simp [fresh, MemPool.Live, MemPool.ofSize] at h
  pure p ℓ h := by simp [fresh, MemPool.Live, MemPool.ofSize] at h

/-- The orders that an order to buy meets before one that is too dear. -/
def inReach (b : MEOrderBook) (limit : Price) : List OrderPtr :=
  (b.walk b.asksAtPrice).takeWhile fun p => (b.orderPool.get p).price ≤ limit

def forSale (b : MEOrderBook) (limit : Price) : Nat := ((b.inReach limit).map fun p => (b.orderPool.get p).qty.toNat).sum

/-- What is left of an order of `qty` after the matching finds an empty slot, or a level
of its side, and of its price if `priced` asks so of the side. -/
def Fits (priced : Side → Prop) (b : MEOrderBook) (side : Side) (price : Price) (qty : Qty) : Prop :=
  qty = 0 ∨ ((side = .BUY ∨ side = .SELL) ∧ ∀ ℓ ∈ b.priceOrdersAtPriceHashMap (priceToIndex price),
    (b.levelSide ℓ = side ∧ (priced side → b.levelPrice ℓ = price)) ∨
      (side = .BUY ∧ (qty.toNat ≤ b.forSale price ∨ ∀ p ∈ b.ordersOf ℓ, p ∈ b.inReach price)))

/-- No remainder joins a level of another side, nor one of another price if `priced` asks so
of its side. -/
def Clean (priced : Side → Prop) (b : MEOrderBook) : Request → Prop
  | .add _ _ _ side price qty => Fits priced b side price qty
  | .cancel .. => True

section Decidable
variable [DecidablePred priced]

instance (side : Side) (price : Price) (qty : Qty) : Decidable (Fits priced b side price qty) :=
  inferInstanceAs (Decidable (_ ∨ _))

instance (r : Request) : Decidable (Clean priced b r) := by
  cases r with
  | add clientId clientOrderId tickerId side price qty => exact inferInstanceAs (Decidable (Fits priced b side price qty))
  | cancel clientId orderId tickerId => exact inferInstanceAs (Decidable True)

end Decidable

/-! ## What keeps a book tidy -/

/-- Orders may leave, where the levels stay. -/
theorem Tidy.congr (ht : Tidy priced b l) (hbids : b'.bidsAtPrice = b.bidsAtPrice) (hasks : b'.asksAtPrice = b.asksAtPrice)
    (hview : ∀ ℓ, b'.levelView ℓ = b.levelView ℓ)
    (hlive : ∀ ℓ, b'.ordersAtPricePool.Live ℓ ↔ b.ordersAtPricePool.Live ℓ)
    (hslots : b'.priceOrdersAtPriceHashMap = b.priceOrdersAtPriceHashMap)
    (horders : ∀ p, b'.orderPool.Live p → b.orderPool.Live p)
    (hkeep : ∀ p, (b'.orderPool.get p).side = (b.orderPool.get p).side ∧
      (b'.orderPool.get p).price = (b.orderPool.get p).price) : Tidy priced b' l := by
  refine ⟨ht.toLevels.congr hbids hasks hview hlive, fun p ℓ hp hs => ?_⟩
  rw [hslots, slotOf, (hkeep p).2] at hs
  rw [(hkeep p).1, (hkeep p).2, levelSide, levelPrice, view_of_level MEOrdersAtPrice.side (hview ℓ),
    view_of_level MEOrdersAtPrice.price (hview ℓ)]
  exact ht.pure p ℓ (horders p hp) hs

/-- What a removal makes of the levels: a level goes with its last order. -/
structure Shrunk (b b' : MEOrderBook) (ring : Slot → List OrderPtr) (p : OrderPtr) (l l' : List LevelPtr) : Prop where
  side : ∀ ℓ, b'.levelSide ℓ = b.levelSide ℓ
  price : ∀ ℓ, b'.levelPrice ℓ = b.levelPrice ℓ
  cases : (ring (b.slotOf p) ≠ [p] ∧ l' = l ∧ b'.priceOrdersAtPriceHashMap = b.priceOrdersAtPriceHashMap) ∨
    (ring (b.slotOf p) = [p] ∧ (∃ ℓ, b.priceOrdersAtPriceHashMap (b.slotOf p) = some ℓ ∧ l' = l.erase ℓ) ∧
      b'.priceOrdersAtPriceHashMap = Function.update b.priceOrdersAtPriceHashMap (b.slotOf p) none)

theorem Tidy.remove (hb : HeapInv b ring) (ht : Tidy priced b l) (h : removeOrder (some p) b = .ok u b') :
    ∃ l', Tidy priced b' l' ∧ Shrunk b b' ring p l l' := by
  obtain ⟨hrem, hh⟩ := heap_removeOrder hb h
  obtain ⟨hlive, -, -, b₁, hu, hb'⟩ := removeOrder_ok.mp h
  have hkeep : ∀ q, (b'.orderPool.get q).side = (b.orderPool.get q).side ∧
      (b'.orderPool.get q).price = (b.orderPool.get q).price := fun q =>
    ⟨view_of_content _ (hrem.content q), view_of_content _ (hrem.content q)⟩
  have hbids : b'.bidsAtPrice = b.bidsAtPrice := by
    have hj := hrem.journal
    simp only [journal, Prod.mk.injEq] at hj
    exact hj.2.2.2.2.1
  have horders : ∀ q, b'.orderPool.Live q → b.orderPool.Live q := fun q hq => ((hrem.live_iff q).mp hq).2
  rcases unlinkOrder_cases hb hlive with ⟨halone, he⟩ | ⟨halone, a, c, ℓ, -, -, -, -, -, he⟩
  · rw [he] at hu
    obtain ⟨ℓ, b₂, hℓ, hul, -, hlℓ, rfl⟩ := removeOrdersAtPrice_ok.mp hu
    have hrel := (relinks_unlinkLevel _ _ _).of_ok hul
    rw [(ht.pure p ℓ hlive hℓ).1] at hul
    have hring : AskRing b₂ (l.erase ℓ) ∧ ∀ q ∉ l, b₂.nextEntry q = b.nextEntry q := by
      by_cases hnext : b.nextEntry ℓ = none
      · obtain ⟨b₃, he₃⟩ := (ht.toLevels.unlink hlℓ).2 hnext
        rw [he₃] at hul
        cases hul
      · obtain ⟨b₃, he₃, hr₃⟩ := (ht.toLevels.unlink hlℓ).1 hnext
        rw [he₃] at hul
        cases hul
        exact hr₃
    have hget : ∀ q, b'.ordersAtPricePool.get q = b₂.ordersAtPricePool.get q := fun q => by simp [hb', dropped]
    have hlevels : ∀ q, b'.ordersAtPricePool.Live q ↔ q ≠ ℓ ∧ b.ordersAtPricePool.Live q := fun q => by
      simp [hb', dropped, MemPool.live_release, hrel.levelLive]
    have hside : ∀ q, b'.levelSide q = b.levelSide q := fun q => by rw [levelSide, hget, hrel.levelSide]
    have hprice : ∀ q, b'.levelPrice q = b.levelPrice q := fun q => by rw [levelPrice, hget, hrel.levelPrice]
    have hslots : b'.priceOrdersAtPriceHashMap = Function.update b.priceOrdersAtPriceHashMap (b.slotOf p) none := by
      rw [hb']; rfl
    refine ⟨l.erase ℓ, ⟨⟨hbids.trans ht.bids, hring.1.congr (by rw [hb']; rfl) fun q _ => by rw [levelView, hget, levelView],
      fun q hq => ?_, fun q hq hs => ?_, fun q hq hs => ?_, fun q hq => ?_⟩, fun q ℓ' hq hs => ?_⟩,
      hside, hprice, .inr ⟨halone, ⟨ℓ, hℓ, rfl⟩, hslots⟩⟩
    · rw [hlevels]
      have hq' := (ht.asks.nodup.mem_erase_iff).mp hq
      exact ⟨hq'.1, ht.live q hq'.2⟩
    · rw [hlevels] at hq
      rw [hside] at hs
      exact (ht.asks.nodup.mem_erase_iff).mpr ⟨hq.1, ht.mem q hq.2 hs⟩
    · rw [hlevels] at hq
      rw [hside] at hs
      have hnot : q ∉ l := fun hm => Side.buy_ne_sell (hs.symm.trans (ht.asks.sides q hm))
      rw [nextEntry, hget]
      exact (hring.2 q hnot).trans (ht.lone q hq.2 hs)
    · rw [hside]
      exact ht.sides q ((hlevels q).mp hq).2
    · have hslot : b'.slotOf q = b.slotOf q := by rw [slotOf, (hkeep q).2]
      rw [hslots, hslot, Function.update_apply] at hs
      split_ifs at hs
      rw [(hkeep q).1, (hkeep q).2, hside, hprice]
      exact ht.pure q ℓ' (horders q hq) hs
  · rw [he] at hu
    cases hu
    obtain ⟨hlv, -, -, hsl, -, has, -⟩ := @frame_unlinked b p ℓ a c
    have hview : ∀ q, b'.levelView q = b.levelView q := fun q => by
      rw [hb']
      exact view_unlinked (fun o => { o with firstMeOrder := none }) (fun _ _ => rfl) q
    refine ⟨l, ht.congr hbids (by rw [hb']; exact has) hview (fun q => by rw [hb']; exact hlv q) (by rw [hb']; exact hsl) horders
      fun q => ⟨(hkeep q).1, (hkeep q).2⟩, fun q => view_of_level MEOrdersAtPrice.side (hview q),
      fun q => view_of_level MEOrdersAtPrice.price (hview q), .inl ⟨halone, rfl, by rw [hb']; exact hsl⟩⟩

/-- A new level for the order `o` to buy or to sell. -/
private theorem Levels.open (hb : HeapInv b ring) (hl : Levels b l) {o : MEOrder} {b₁ : MEOrderBook} {n : LevelPtr}
    {next next' : Nat} (hside : o.side = .BUY ∨ o.side = .SELL) (hslot : b.priceOrdersAtPriceHashMap (priceToIndex o.price) = none)
    (hfree : ¬ b.ordersAtPricePool.Live n)
    (h : addOrdersAtPrice n ((b.taken p o next).opened p o n next') = .ok () b₁) :
    ∃ l', Levels b₁ l' ∧ (∀ ℓ ≠ n, b₁.levelSide ℓ = b.levelSide ℓ ∧ b₁.levelPrice ℓ = b.levelPrice ℓ) ∧
      b₁.levelSide n = o.side ∧ b₁.levelPrice n = o.price ∧
      b₁.priceOrdersAtPriceHashMap = Function.update b.priceOrdersAtPriceHashMap (priceToIndex o.price) (some n) := by
  have hrel := addOrdersAtPrice_ok h
  obtain ⟨c, hc⟩ : ∃ c, c = (b.taken p o next).opened p o n next' := ⟨_, rfl⟩
  have hget : c.ordersAtPricePool.get n =
      { side := o.side, price := o.price, firstMeOrder := some p, prevEntry := none, nextEntry := none } := by
    rw [hc]; simp [opened, taken, MemPool.get_take]
  have hold : ∀ ℓ ≠ n, c.ordersAtPricePool.get ℓ = b.ordersAtPricePool.get ℓ := fun ℓ hℓ => by
    rw [hc]; simp [opened, taken, MemPool.get_take, hℓ]
  have hlive : ∀ ℓ, c.ordersAtPricePool.Live ℓ ↔ ℓ = n ∨ b.ordersAtPricePool.Live ℓ := fun ℓ => by
    rw [hc]; simp [opened, taken, MemPool.live_take]
  have hcs : c.priceOrdersAtPriceHashMap = b.priceOrdersAtPriceHashMap ∧ c.asksAtPrice = b.asksAtPrice ∧
      c.bidsAtPrice = b.bidsAtPrice := by rw [hc]; exact ⟨rfl, rfl, rfl⟩
  rw [← hc] at h hrel
  rw [hget] at hrel
  have hlive₁ : ∀ ℓ, b₁.ordersAtPricePool.Live ℓ ↔ ℓ = n ∨ b.ordersAtPricePool.Live ℓ := fun ℓ =>
    (hrel.levelLive ℓ).trans (hlive ℓ)
  have hside₁ : ∀ ℓ, b₁.levelSide ℓ = c.levelSide ℓ := hrel.levelSide
  have hprice₁ : ∀ ℓ, b₁.levelPrice ℓ = c.levelPrice ℓ := hrel.levelPrice
  have hsiden : c.levelSide n = o.side := by rw [levelSide, hget]
  have hpricen : c.levelPrice n = o.price := by rw [levelPrice, hget]
  have hsideo : ∀ ℓ ≠ n, c.levelSide ℓ = b.levelSide ℓ := fun ℓ hℓ => by rw [levelSide, hold ℓ hℓ]
  have hpriceo : ∀ ℓ ≠ n, c.levelPrice ℓ = b.levelPrice ℓ := fun ℓ hℓ => by rw [levelPrice, hold ℓ hℓ]
  have hln : ∀ ℓ ∈ l, ℓ ≠ n := fun ℓ hℓ e => hfree (e ▸ hl.live ℓ hℓ)
  have hn : n ∉ l := fun h => hln n h rfl
  have hring : AskRing c l := hl.asks.congr hcs.2.1 fun ℓ hℓ => by rw [levelView, hold ℓ (hln ℓ hℓ), levelView]
  have hbids₁ : b₁.bidsAtPrice = none := by
    have hj := hrel.journal
    simp only [journal, Prod.mk.injEq] at hj
    exact hj.2.2.2.2.1.trans (hcs.2.2.trans hl.bids)
  have hkeep : ∀ ℓ, b₁.ordersAtPricePool.Live ℓ → ℓ ≠ n → b.ordersAtPricePool.Live ℓ := fun ℓ h hne =>
    ((hlive₁ ℓ).mp h).resolve_left hne
  have hsides₁ : ∀ ℓ, b₁.ordersAtPricePool.Live ℓ → b₁.levelSide ℓ = .BUY ∨ b₁.levelSide ℓ = .SELL := by
    intro ℓ hℓ
    rw [hside₁]
    by_cases hne : ℓ = n
    · rw [hne, hsiden]; exact hside
    · rw [hsideo ℓ hne]; exact hl.sides ℓ (hkeep ℓ hℓ hne)
  have hlevels : ∃ l', Levels b₁ l' := by
    rcases hside with hside | hside
    · obtain ⟨hring₁, hself, hnext⟩ := hring.insert_bid (hcs.2.2.trans hl.bids) hn (hsiden.trans hside) h
      refine ⟨l, hbids₁, hring₁, fun ℓ hℓ => (hlive₁ ℓ).mpr (.inr (hl.live ℓ hℓ)), fun ℓ hℓ hs => ?_, fun ℓ hℓ hs => ?_, hsides₁⟩
      · rw [hside₁] at hs
        have hne : ℓ ≠ n := fun e => Side.buy_ne_sell (hside.symm.trans (hsiden.symm.trans (e ▸ hs)))
        rw [hsideo ℓ hne] at hs
        exact hl.mem ℓ (hkeep ℓ hℓ hne) hs
      · by_cases hne : ℓ = n
        · rw [hne]; exact hself
        · rw [hside₁, hsideo ℓ hne] at hs
          rw [hnext ℓ hne, nextEntry, hold ℓ hne]
          exact hl.lone ℓ (hkeep ℓ hℓ hne) hs
    · have hprices : ∀ ℓ ∈ l, c.levelPrice ℓ ≠ c.levelPrice n := by
        intro ℓ hℓ e
        rw [hpriceo ℓ (hln ℓ hℓ), hpricen] at e
        have hhome := hb.home ℓ (hl.live ℓ hℓ)
        rw [show (b.ordersAtPricePool.get ℓ).price = o.price from e, hslot] at hhome
        cases hhome
      obtain ⟨l', hperm, hring₁, hnext⟩ := hring.insert hn (by rw [nextEntry, hget]) (hsiden.trans hside) hprices h
      have hmem : ∀ ℓ, ℓ ∈ l' ↔ ℓ = n ∨ ℓ ∈ l := fun ℓ => by rw [hperm.mem_iff, List.mem_cons]
      refine ⟨l', hbids₁, hring₁, fun ℓ hℓ => ?_, fun ℓ hℓ hs => ?_, fun ℓ hℓ hs => ?_, hsides₁⟩
      · rw [hlive₁]
        exact ((hmem ℓ).mp hℓ).imp_right (hl.live ℓ)
      · rw [hmem]
        refine or_iff_not_imp_left.mpr fun hne => ?_
        rw [hside₁, hsideo ℓ hne] at hs
        exact hl.mem ℓ (hkeep ℓ hℓ hne) hs
      · rw [hside₁] at hs
        have hne : ℓ ≠ n := fun e => Side.sell_ne_buy (hside.symm.trans (hsiden.symm.trans (e ▸ hs)))
        rw [hsideo ℓ hne] at hs
        have hnl : ℓ ∉ n :: l := fun hm => by
          rcases List.mem_cons.mp hm with e | hm
          · exact hne e
          · exact Side.buy_ne_sell (hs.symm.trans (hl.asks.sides ℓ hm))
        rw [hnext ℓ hnl, nextEntry, hold ℓ hne]
        exact hl.lone ℓ (hkeep ℓ hℓ hne) hs
  obtain ⟨l', hl'⟩ := hlevels
  refine ⟨l', hl', fun ℓ hℓ => ⟨(hside₁ ℓ).trans (hsideo ℓ hℓ), (hprice₁ ℓ).trans (hpriceo ℓ hℓ)⟩,
    (hside₁ n).trans hsiden, (hprice₁ n).trans hpricen, ?_⟩
  rw [hrel.slots, hcs.1]

/-- A remainder that fits comes to rest in a tidy book. -/
theorem Tidy.rest (hb : HeapInv b ring) (ht : Tidy priced b l) {o : MEOrder} {b₁ : MEOrderBook}
    (hside : o.side = .BUY ∨ o.side = .SELL) (hs : s = priceToIndex o.price)
    (hfit : ∀ ℓ, b.priceOrdersAtPriceHashMap s = some ℓ →
      b.levelSide ℓ = o.side ∧ (priced o.side → b.levelPrice ℓ = o.price))
    (hpl : Placed b b₁ s p o) (hadd : Added b (b₁.indexed p o) p o) : ∃ l', Tidy priced (b₁.indexed p o) l' := by
  have hlevels : (∃ l', Levels b₁ l') ∧ (∀ ℓ, b.ordersAtPricePool.Live ℓ → b₁.levelSide ℓ = b.levelSide ℓ ∧
      b₁.levelPrice ℓ = b.levelPrice ℓ) ∧ (∀ t, t ≠ s ∨ b.priceOrdersAtPriceHashMap s ≠ none →
      b₁.priceOrdersAtPriceHashMap t = b.priceOrdersAtPriceHashMap t) ∧
      ∀ ℓ, b₁.priceOrdersAtPriceHashMap s = some ℓ → o.side = b₁.levelSide ℓ ∧
        (priced o.side → o.price = b₁.levelPrice ℓ) := by
    cases hpl with
    | @old ℓ hslot hpool hslots hasks =>
      have hj := hadd.journal
      simp only [journal, Prod.mk.injEq] at hj
      have hget : ∀ ℓ, b₁.levelSide ℓ = b.levelSide ℓ ∧ b₁.levelPrice ℓ = b.levelPrice ℓ := fun ℓ => by
        rw [levelSide, levelPrice, hpool]; exact ⟨rfl, rfl⟩
      refine ⟨⟨l, ht.toLevels.congr hj.2.2.2.2.1 hasks (fun ℓ => by rw [levelView, hpool, levelView]) fun ℓ => by rw [hpool]⟩,
        fun ℓ _ => hget ℓ, fun t _ => by rw [hslots], fun ℓ' h' => ?_⟩
      rw [hslots] at h'
      rw [(hget ℓ').1, (hget ℓ').2]
      exact ⟨(hfit ℓ' h').1.symm, fun h => ((hfit ℓ' h').2 h).symm⟩
    | new hslot hfree hplaced =>
      rw [hs] at hslot
      obtain ⟨l', hl', hold, hsn, hpn, hslots⟩ := ht.toLevels.open hb hside hslot hfree hplaced
      refine ⟨⟨l', hl'⟩, fun ℓ hℓ => hold ℓ fun e => hfree (e ▸ hℓ), fun t htne => ?_, fun ℓ' h' => ?_⟩
      · rw [hslots, Function.update_of_ne]
        rw [← hs]
        exact htne.resolve_right fun h => h (by rw [hs]; exact hslot)
      · rw [hslots, hs, Function.update_self] at h'
        obtain rfl := Option.some.inj h'
        exact ⟨hsn.symm, fun _ => hpn.symm⟩
  obtain ⟨⟨l', hl'⟩, hold, hother, hnew⟩ := hlevels
  have hl'' : Levels (b₁.indexed p o) l' := hl'.congr rfl rfl (fun _ => rfl) fun _ => Iff.rfl
  refine ⟨l', hl'', fun q ℓ hq h => ?_⟩
  rcases (hadd.live_iff q).mp hq with rfl | hq
  · rw [slotOf, hadd.view MEOrder.price, ← hs] at h
    rw [hadd.view MEOrder.side, hadd.view MEOrder.price]
    exact hnew ℓ h
  · have hne := hadd.ne hq
    have hqside : ((b₁.indexed p o).orderPool.get q).side = (b.orderPool.get q).side :=
      view_of_content MEOrder.side (hadd.content q hne)
    have hqprice : ((b₁.indexed p o).orderPool.get q).price = (b.orderPool.get q).price :=
      view_of_content MEOrder.price (hadd.content q hne)
    have hslot : b.slotOf q ≠ s ∨ b.priceOrdersAtPriceHashMap s ≠ none := by
      refine or_iff_not_imp_left.mpr fun e hnone => ?_
      obtain ⟨ℓ', h'⟩ := hb.level_of_mem (hb.mem_slotOf hq)
      rw [not_not.mp e, hnone] at h'
      cases h'
    have hℓ : b.priceOrdersAtPriceHashMap (b.slotOf q) = some ℓ := by
      rw [← hother _ hslot, slotOf, ← hqprice]
      exact h
    obtain ⟨hsℓ, hpℓ⟩ := hold ℓ (hb.level _ _ hℓ).1
    rw [hqside, hqprice, show (b₁.indexed p o).levelSide ℓ = b.levelSide ℓ from hsℓ,
      show (b₁.indexed p o).levelPrice ℓ = b.levelPrice ℓ from hpℓ]
    exact ht.pure q ℓ hq hℓ

/-! ## The matching along the walk -/

/-- A level whose ring is empty can be left out of a walk. -/
private theorem flatMap_erase {f : LevelPtr → List OrderPtr} (hf : f ℓ = []) : (l.erase ℓ).flatMap f = l.flatMap f := by
  by_cases h : ℓ ∈ l
  · obtain ⟨l₁, l₂, hn, rfl, he⟩ := List.exists_erase_eq h
    rw [he, List.flatMap_append, List.flatMap_append, List.flatMap_cons, hf, List.nil_append]
  · rw [List.erase_of_not_mem h]

/-- A removal takes its order out of the walk. -/
theorem walk_remove {l' : List LevelPtr} (hb : HeapInv b ring) (hl : Levels b l)
    (hb' : HeapInv b' (b.without ring p)) (hl' : Levels b' l') (hsh : Shrunk b b' ring p l l') :
    b'.walk b'.asksAtPrice = (b.walk b.asksAtPrice).erase p := by
  have hring : ∀ s, b.without ring p s = (ring s).filter (· != p) := fun s => by
    by_cases hs : s = b.slotOf p
    · rw [hs, without, Function.update_self, (hb.nodup _).erase_eq_filter]
    · rw [without, Function.update_of_ne hs, List.filter_eq_self.mpr]
      intro q hq
      have hne : q ≠ p := fun e => hs (((hb.member s q).mp hq).2.symm.trans (by rw [e]))
      simpa using hne
  have hflat : (l'.flatMap fun ℓ => b.without ring p (priceToIndex (b.levelPrice ℓ))) =
      l.flatMap fun ℓ => b.without ring p (priceToIndex (b.levelPrice ℓ)) := by
    rcases hsh.cases with ⟨-, rfl, -⟩ | ⟨halone, ⟨ℓ, hℓ, rfl⟩, -⟩
    · rfl
    · refine flatMap_erase ?_
      rw [(hb.level _ ℓ hℓ).2.2, without, Function.update_self, halone, List.erase_cons_head]
  rw [(nodup_walk hb hl).erase_eq_filter, walk_asks hb' hl', walk_asks hb hl, List.filter_flatMap]
  simp only [hsh.price]
  rw [hflat]
  exact List.flatMap_congr fun ℓ _ => hring _

/-- The walk begins with the first order of the best level. -/
theorem Levels.walk_of_best (hb : HeapInv b ring) (hl : Levels b l) (hbest : b.asksAtPrice = some ℓ)
    (hfirst : (b.ordersAtPricePool.get ℓ).firstMeOrder = some p) : ∃ m, b.walk b.asksAtPrice = p :: m := by
  have hhead := hl.asks.head.symm.trans hbest
  obtain ⟨m, rfl⟩ := List.head?_eq_some_iff.mp hhead
  obtain ⟨d, k, hr, hd⟩ := hb.head_of_level (hb.home ℓ (hl.live ℓ (List.mem_cons_self ..)))
  obtain rfl := Option.some.inj (hfirst.symm.trans hd)
  refine ⟨k ++ m.flatMap fun ℓ => ring (priceToIndex (b.levelPrice ℓ)), ?_⟩
  rw [walk_asks hb hl, List.flatMap_cons, levelPrice, hr, List.cons_append]

theorem Levels.mem_walk (hb : HeapInv b ring) (hl : Levels b l) : p ∈ b.walk b.asksAtPrice ↔
    b.orderPool.Live p ∧ ∃ ℓ ∈ l, b.priceOrdersAtPriceHashMap (b.slotOf p) = some ℓ := by
  rw [walk_asks hb hl, List.mem_flatMap]
  constructor
  · rintro ⟨ℓ, hℓ, hp⟩
    obtain ⟨hlive, hs⟩ := (hb.member _ p).mp hp
    exact ⟨hlive, ℓ, hℓ, by rw [hs]; exact hb.home ℓ (hl.live ℓ hℓ)⟩
  · rintro ⟨hlive, ℓ, hℓ, hs⟩
    refine ⟨ℓ, hℓ, (hb.member _ p).mpr ⟨hlive, ?_⟩⟩
    exact (hb.level _ ℓ hs).2.2.symm

/-- The matching fills orders to sell. -/
theorem Tidy.of_turn {stop : Price → Bool} (hb : HeapInv b ring) (ht : Tidy priced b l)
    (hturn : Turn asksAtPrice stop b leaves p) : b.orderPool.Live p ∧ (b.orderPool.get p).side = .SELL := by
  obtain ⟨ℓ, hbest, -, hfirst⟩ := hturn.first
  obtain ⟨m, hwalk⟩ := ht.toLevels.walk_of_best hb hbest hfirst
  obtain ⟨hlive, ℓ', hℓ', hs⟩ := (ht.toLevels.mem_walk hb).mp (by rw [hwalk]; exact List.mem_cons_self ..)
  exact ⟨hlive, (ht.pure p ℓ' hlive hs).1.trans (ht.asks.sides ℓ' hℓ')⟩

/-- Where something is left of an order to buy, nothing is in its reach. -/
theorem Levels.inReach_of_exhausted (hb : HeapInv b ring) (hl : Levels b l) (hne : leaves ≠ 0)
    (hex : Exhausted asksAtPrice (tooDear limit) b leaves) : b.inReach limit = [] := by
  rcases hex with h0 | hnone | ⟨ℓ, p, hbest, hfirst, hdear⟩
  · exact absurd h0 hne
  · rw [inReach, hnone]
    rfl
  · obtain ⟨m, hwalk⟩ := hl.walk_of_best hb hbest hfirst
    rw [inReach, hwalk, List.takeWhile_cons_of_neg]
    simpa using hdear

/-- If the levels to sell are of one price each, nothing in reach means that everything for
sale is dearer. -/
theorem Tidy.dearer (hb : HeapInv b ring) (ht : Tidy priced b l) (hpriced : priced .SELL) (hempty : b.inReach limit = [])
    (hp : b.orderPool.Live p) (hside : (b.orderPool.get p).side = .SELL) : limit < (b.orderPool.get p).price := by
  have hprice : ∀ q ℓ, b.orderPool.Live q → b.priceOrdersAtPriceHashMap (b.slotOf q) = some ℓ → ℓ ∈ l →
      (b.orderPool.get q).price = b.levelPrice ℓ := fun q ℓ hq hs hℓ => by
    obtain ⟨hqs, hqp⟩ := ht.pure q ℓ hq hs
    exact hqp (by rw [hqs, ht.asks.sides ℓ hℓ]; exact hpriced)
  obtain ⟨ℓ, hℓ⟩ := hb.level_of_mem (hb.mem_slotOf hp)
  have hmem : ℓ ∈ l := ht.mem ℓ (hb.level _ ℓ hℓ).1 ((ht.pure p ℓ hp hℓ).1.symm.trans hside)
  obtain ⟨h, m, rfl⟩ := List.exists_cons_of_ne_nil (List.ne_nil_of_mem hmem)
  have hhome := hb.home h (ht.live h (List.mem_cons_self ..))
  obtain ⟨d, k, hr, hd⟩ := hb.head_of_level hhome
  obtain ⟨hdl, hds⟩ := (hb.member _ d).mp (by rw [hr]; exact List.mem_cons_self ..)
  obtain ⟨n, hwalk⟩ := ht.toLevels.walk_of_best hb (ht.asks.head.trans rfl) hd
  have hlt : limit < (b.orderPool.get d).price := by
    by_contra hle
    rw [inReach, hwalk, List.takeWhile_cons_of_pos (by simpa [Int64.not_lt] using hle)] at hempty
    cases hempty
  rw [hprice d h hdl (by rw [hds]; exact hhome) (List.mem_cons_self ..)] at hlt
  rw [hprice p ℓ hp hℓ hmem]
  rcases List.mem_cons.mp hmem with rfl | hm
  · exact hlt
  · exact Int64.lt_trans hlt ((List.pairwise_cons.mp ht.asks.rising).1 ℓ hm)

/-! ## Runs of clean requests -/

/-- A tidy book, and while an order is matched the remainder will fit if and only if `fits`. -/
def Orderly (priced : Side → Prop) (fits : Prop) (b : MEOrderBook) (_ : Slot → List OrderPtr) (phase : Option (Incoming × Qty)) : Prop :=
  ∃ l, Tidy priced b l ∧ ∀ x leaves, phase = some (x, leaves) → (Fits priced b x.side x.price leaves ↔ fits)

theorem tidy_filled (ht : Tidy priced b l) (x : Incoming) (p : OrderPtr) (leaves : Qty) :
    Tidy priced (b.filled x p leaves) l :=
  ht.congr rfl rfl (fun _ => rfl) (fun _ => Iff.rfl) rfl (fun q hq => (live_filled x q).mp hq)
    fun q => ⟨view_filled x q MEOrder.side, view_filled x q MEOrder.price⟩

/-- A turn takes the first order that is in reach. -/
private theorem inReach_of_turn (hb : HeapInv b ring) (ht : Tidy priced b l)
    (hturn : Turn asksAtPrice (tooDear limit) b leaves p) : ∃ m, b.walk b.asksAtPrice = p :: m ∧
      b.inReach limit = p :: m.takeWhile fun q => (b.orderPool.get q).price ≤ limit := by
  obtain ⟨ℓ, hbest, -, hfirst⟩ := hturn.first
  obtain ⟨m, hwalk⟩ := ht.toLevels.walk_of_best hb hbest hfirst
  refine ⟨m, hwalk, ?_⟩
  rw [inReach, hwalk, List.takeWhile_cons_of_pos]
  simpa [Int64.not_lt] using hturn.meets

/-- What a turn that uses up order `p` makes of the orders in reach. -/
private structure Consumed (b b' : MEOrderBook) (limit : Price) (p : OrderPtr) : Prop where
  reach : b.inReach limit = p :: b'.inReach limit
  sale : b.forSale limit = (b.orderPool.get p).qty.toNat + b'.forSale limit
  slots : ∀ s ℓ, b'.priceOrdersAtPriceHashMap s = some ℓ → b.priceOrdersAtPriceHashMap s = some ℓ ∧
    ∀ q, q ∈ b'.ordersOf ℓ ↔ q ≠ p ∧ q ∈ b.ordersOf ℓ
  gone : ∀ s ℓ, b'.priceOrdersAtPriceHashMap s = none → b.priceOrdersAtPriceHashMap s = some ℓ → b.ordersOf ℓ = [p]
  level : ∀ ℓ, b'.levelSide ℓ = b.levelSide ℓ ∧ b'.levelPrice ℓ = b.levelPrice ℓ

private theorem consumed (hb : HeapInv b ring) (ht : Tidy priced b l) (hturn : Turn asksAtPrice (tooDear limit) b leaves p)
    (hr : removeOrder (some p) (b.filled x p leaves) = .ok () b') : Consumed b b' limit p := by
  obtain ⟨hrem, hh⟩ := heap_removeOrder (heap_filled hb x p leaves) hr
  obtain ⟨l', ht', hsh⟩ := (tidy_filled ht x p leaves).remove (heap_filled hb x p leaves) hr
  obtain ⟨m, hwalk, hreach⟩ := inReach_of_turn hb ht hturn
  have hnodup : (p :: m).Nodup := by
    rw [← hwalk]
    exact nodup_walk hb ht.toLevels
  have hprices : ∀ q, (b'.orderPool.get q).price = (b.orderPool.get q).price := fun q => by
    rw [view_of_content MEOrder.price (hrem.content q), view_filled x q MEOrder.price]
  have hqtys : ∀ q ≠ p, (b'.orderPool.get q).qty = (b.orderPool.get q).qty := fun q hq => by
    rw [view_of_content MEOrder.qty (hrem.content q), get_filled, if_neg hq]
  have hwalk' : b'.walk b'.asksAtPrice = m := by
    rw [walk_remove (heap_filled hb x p leaves) (tidy_filled ht x p leaves).toLevels hh ht'.toLevels hsh,
      walk_asks (heap_filled hb x p leaves) (tidy_filled ht x p leaves).toLevels]
    rw [walk_asks hb ht.toLevels] at hwalk
    exact (congrArg (List.erase · p) hwalk).trans (List.erase_cons_head ..)
  have hne : ∀ q ∈ m, q ≠ p := fun q hq e => (List.nodup_cons.mp hnodup).1 (e ▸ hq)
  have hreach' : b'.inReach limit = m.takeWhile fun q => (b.orderPool.get q).price ≤ limit := by
    rw [inReach, hwalk']
    simp only [hprices]
  have horders : ∀ s ℓ, b.priceOrdersAtPriceHashMap s = some ℓ → b.ordersOf ℓ = ring s := fun s ℓ hs => by
    obtain ⟨hlive, -, hprice⟩ := hb.level s ℓ hs
    rw [ordersOf_eq hb hlive, levelPrice, hprice]
  refine ⟨by rw [hreach, hreach'], ?_, fun s ℓ hs => ?_, fun s ℓ hs hs' => ?_, fun ℓ => ⟨hsh.side ℓ, hsh.price ℓ⟩⟩
  · rw [forSale, forSale, hreach, hreach', List.map_cons, List.sum_cons]
    refine congrArg _ (congrArg List.sum (List.map_congr_left fun q hq => ?_))
    rw [hqtys q (hne q (List.takeWhile_subset _ hq))]
  · have hold : b.priceOrdersAtPriceHashMap s = some ℓ := by
      rcases hsh.cases with ⟨-, -, h⟩ | ⟨-, -, h⟩
      · rw [h] at hs
        exact hs
      · rw [h, Function.update_apply] at hs
        split_ifs at hs
        exact hs
    obtain ⟨hlive, -, hprice⟩ := hh.level s ℓ hs
    refine ⟨hold, fun q => ?_⟩
    rw [ordersOf_eq hh hlive, levelPrice, hprice, horders s ℓ hold, hh.member, hrem.live_iff, hb.member, live_filled,
      and_assoc, slotOf, hprices]
  · rcases hsh.cases with ⟨-, -, h⟩ | ⟨halone, -, h⟩
    · rw [h] at hs
      exact absurd (hs.symm.trans hs') (by simp)
    · rw [h, Function.update_apply] at hs
      split_ifs at hs with he
      · rw [horders s ℓ hs', he]
        exact halone
      · exact absurd (hs.symm.trans hs') (by simp)

/-- Such a turn does not change whether the order will fit: the quantity left and what is
for sale shrink alike, and a level that goes was in reach. -/
private theorem fits_consumed (hc : Consumed b b' x.price p) (hbuy : x.side = .BUY) (hne : leaves ≠ 0)
    (hfull : (b.orderPool.get p).qty - b.fillQty p leaves = 0) :
    Fits priced b' x.side x.price (leaves - b.fillQty p leaves) ↔ Fits priced b x.side x.price leaves := by
  have hfill := fillQty_toNat b p leaves
  obtain ⟨hleft, hrest⟩ := sub_fillQty_toNat b p leaves
  have hall : (b.fillQty p leaves).toNat = (b.orderPool.get p).qty.toNat := by
    rw [hfull, UInt32.toNat_zero] at hrest
    omega
  have hsale : (leaves - b.fillQty p leaves).toNat ≤ b'.forSale x.price ↔ leaves.toNat ≤ b.forSale x.price := by
    rw [hleft, hc.sale]
    omega
  by_cases hzero : leaves - b.fillQty p leaves = 0
  · refine iff_of_true (.inl hzero) (.inr ⟨.inl hbuy, fun ℓ _ => .inr ⟨hbuy, .inl (hsale.mp ?_)⟩⟩)
    rw [hzero]
    exact Nat.zero_le _
  · rw [Fits, Fits, or_iff_right hzero, or_iff_right hne]
    refine and_congr_right fun _ => ?_
    cases hs : b'.priceOrdersAtPriceHashMap (priceToIndex x.price) with
    | none =>
      refine iff_of_true (fun ℓ h => by cases h) fun ℓ h => .inr ⟨hbuy, .inr fun q hq => ?_⟩
      rw [hc.gone _ ℓ hs h] at hq
      rw [hc.reach, List.mem_singleton.mp hq]
      exact List.mem_cons_self ..
    | some ℓ =>
      obtain ⟨hs', hmem⟩ := hc.slots _ ℓ hs
      have hlevel : (∀ q ∈ b'.ordersOf ℓ, q ∈ b'.inReach x.price) ↔ ∀ q ∈ b.ordersOf ℓ, q ∈ b.inReach x.price := by
        rw [hc.reach]
        refine ⟨fun h q hq => ?_, fun h q hq => ?_⟩
        · by_cases he : q = p
          · exact he ▸ List.mem_cons_self ..
          · exact List.mem_cons_of_mem _ (h q ((hmem q).mpr ⟨he, hq⟩))
        · obtain ⟨he, hq'⟩ := (hmem q).mp hq
          exact (List.mem_cons.mp (h q hq')).resolve_left he
      rw [hs']
      simp only [Option.mem_def, Option.some.injEq, forall_eq', (hc.level ℓ).1, (hc.level ℓ).2, hsale, hlevel]

theorem keepsTurns_orderly (fits : Prop) : KeepsTurns (Orderly priced fits) where
  fill := by
    rintro b ring x leaves p hb ⟨l, ht, hfit⟩ hside hturn hopen
    refine ⟨l, tidy_filled ht x p leaves, fun y leaves' h => ?_⟩
    cases h
    refine Iff.trans ?_ (hfit x leaves rfl)
    -- the incoming order is full, and what was for sale was enough
    obtain ⟨m, -, hreach⟩ := inReach_of_turn hb ht hturn
    have hfill := fillQty_toNat b p leaves
    obtain ⟨hleft, hrest⟩ := sub_fillQty_toNat b p leaves
    have hlt : (b.fillQty p leaves).toNat < (b.orderPool.get p).qty.toNat := by
      by_contra hge
      refine hopen (UInt32.toNat_inj.mp ?_)
      rw [hrest, UInt32.toNat_zero]
      omega
    have hzero : leaves - b.fillQty p leaves = 0 := by
      apply UInt32.toNat_inj.mp
      rw [hleft, UInt32.toNat_zero]
      omega
    refine iff_of_true (.inl hzero) (.inr ⟨.inl hside, fun ℓ _ => .inr ⟨hside, .inl ?_⟩⟩)
    rw [forSale, hreach, List.map_cons, List.sum_cons]
    omega
  fillAll := by
    rintro b ring x leaves p b' hb ⟨l, ht, hfit⟩ hside hturn hfull hrem hr hb'
    obtain ⟨l', ht', -⟩ := (tidy_filled ht x p leaves).remove (heap_filled hb x p leaves) hrem
    refine ⟨l', ht', fun y leaves' h => ?_⟩
    cases h
    exact (fits_consumed (consumed hb ht hturn hrem) hside hturn.unfilled hfull).trans (hfit x leaves rfl)

/-- Where nothing is in reach, what is left of an order fits if the slot is empty or has a
level like it. -/
theorem fits_iff_of_exhausted (hb : HeapInv b ring) (ht : Tidy priced b l) (hne : leaves ≠ 0)
    (hex : x.side = .BUY → Exhausted asksAtPrice (tooDear x.price) b leaves) :
    Fits priced b x.side x.price leaves ↔ (x.side = .BUY ∨ x.side = .SELL) ∧
      ∀ ℓ, b.priceOrdersAtPriceHashMap (priceToIndex x.price) = some ℓ →
        b.levelSide ℓ = x.side ∧ (priced x.side → b.levelPrice ℓ = x.price) := by
  rw [Fits, or_iff_right hne]
  refine and_congr_right fun _ => forall₂_congr fun ℓ hℓ => or_iff_left ?_
  rintro ⟨hbuy, hreach⟩
  have hempty := ht.toLevels.inReach_of_exhausted hb hne (hex hbuy)
  rcases hreach with hle | hall
  · rw [forSale, hempty, List.map_nil, List.sum_nil, Nat.le_zero] at hle
    exact hne (UInt32.toNat_inj.mp hle)
  · obtain ⟨d, m, hr, -⟩ := hb.head_of_level hℓ
    obtain ⟨hlive, -, hprice⟩ := hb.level _ ℓ hℓ
    have hd := hall d (by rw [ordersOf_eq hb hlive, levelPrice, hprice, hr]; exact List.mem_cons_self ..)
    rw [hempty] at hd
    cases hd

theorem keeps_orderly : Keeps (Clean priced) (Orderly priced True) where
  toKeepsTurns := keepsTurns_orderly True
  accept := by
    rintro b ring clientId clientOrderId tickerId side price qty x hb ⟨l, ht, -⟩ hg rfl
    refine ⟨l, ht.congr rfl rfl (fun _ => rfl) (fun _ => Iff.rfl) rfl (fun _ h => h) fun _ => ⟨rfl, rfl⟩, fun y leaves h => ?_⟩
    cases h
    exact iff_of_true hg trivial
  done := by
    rintro b ring x hb ⟨l, ht, -⟩
    exact ⟨l, ht, nofun⟩
  rest := by
    rintro b ring x leaves p b₁ s o hb ⟨l, ht, hfit⟩ hne hex hs ho hpl hadd hb₁
    obtain ⟨hside, hlevel⟩ := (fits_iff_of_exhausted hb ht hne hex).mp ((hfit x leaves rfl).mpr trivial)
    have ho' : o.side = x.side ∧ o.price = x.price := by rw [ho]; exact ⟨rfl, rfl⟩
    obtain ⟨l', ht'⟩ := ht.rest hb (by rw [ho'.1]; exact hside) (by rw [ho'.2]; exact hs)
      (fun ℓ hℓ => by rw [ho'.1, ho'.2]; exact hlevel ℓ (hs ▸ hℓ)) hpl hadd
    exact ⟨l', ht'.congr rfl rfl (fun _ => rfl) (fun _ => Iff.rfl) rfl (fun _ h => h) fun _ => ⟨rfl, rfl⟩, nofun⟩
  reject := by
    rintro b ring clientId orderId tickerId hb ⟨l, ht, -⟩ -
    exact ⟨l, ht.congr rfl rfl (fun _ => rfl) (fun _ => Iff.rfl) rfl (fun _ h => h) fun _ => ⟨rfl, rfl⟩, nofun⟩
  cancel := by
    rintro b ring clientId orderId tickerId p b₁ hb ⟨l, ht, -⟩ - - hrem - -
    obtain ⟨l', ht', -⟩ := ht.remove hb hrem
    exact ⟨l', ht'.congr rfl rfl (fun _ => rfl) (fun _ => Iff.rfl) rfl (fun _ h => h) fun _ => ⟨rfl, rfl⟩, nofun⟩

end TradingEcosystem.MEOrderBook
