import TradingEcosystem.OrderBook.Tidy

/-! When the bids of a book stay below its asks. An order to sell never meets the bids,
since `bids_at_price_` is null. -/
namespace TradingEcosystem.MEOrderBook
open Program Runs
variable {b b' : MEOrderBook} {ring : Slot → List OrderPtr} {p q : OrderPtr} {r : Request} {strict : Bool} {rs : List Request}

def Uncrossed (b : MEOrderBook) : Prop :=
  ∀ p q, b.Resting p → b.Resting q → (b.orderPool.get p).side = .BUY → (b.orderPool.get q).side = .SELL →
    (b.orderPool.get p).price < (b.orderPool.get q).price

/-- An order to sell is dearer than every resting order to buy. -/
def AboveBids (b : MEOrderBook) : Request → Prop
  | .add _ _ _ side price qty => side = .SELL → qty ≠ 0 → ∀ p, b.Resting p → (b.orderPool.get p).side = .BUY →
    (b.orderPool.get p).price < price
  | .cancel .. => True

/-- The bids stay below the asks, and below the order to sell that is about to rest. -/
def Apart (b : MEOrderBook) (phase : Option (Incoming × Qty)) : Prop :=
  (∀ p q, b.orderPool.Live p → b.orderPool.Live q → (b.orderPool.get p).side = .BUY → (b.orderPool.get q).side = .SELL →
    (b.orderPool.get p).price < (b.orderPool.get q).price) ∧
  ∀ x leaves, phase = some (x, leaves) → x.side = .SELL → leaves ≠ 0 → ∀ p, b.orderPool.Live p →
    (b.orderPool.get p).side = .BUY → (b.orderPool.get p).price < x.price

private theorem apart_shrink {phase phase' : Option (Incoming × Qty)} (ha : Apart b phase)
    (hlive : ∀ p, b'.orderPool.Live p → b.orderPool.Live p)
    (hkeep : ∀ p, (b'.orderPool.get p).side = (b.orderPool.get p).side ∧
      (b'.orderPool.get p).price = (b.orderPool.get p).price)
    (hphase : ∀ x leaves, phase' = some (x, leaves) → x.side = .SELL → leaves ≠ 0 → phase = some (x, leaves)) :
    Apart b' phase' := by
  refine ⟨fun p q hp hq => ?_, fun x leaves h hs hne p hp => ?_⟩
  · rw [(hkeep p).1, (hkeep p).2, (hkeep q).1, (hkeep q).2]
    exact ha.1 p q (hlive p hp) (hlive q hq)
  · rw [(hkeep p).1, (hkeep p).2]
    exact ha.2 x leaves (hphase x leaves h hs hne) hs hne p (hlive p hp)

theorem keeps_apart : Keeps (fun b r => Clean (· = .SELL) b r ∧ AboveBids b r)
    fun b ring phase => Orderly (· = .SELL) True b ring phase ∧ Apart b phase where
  accept := by
    rintro b ring clientId clientOrderId tickerId side price qty x hb ⟨hk, ha⟩ hg rfl
    refine ⟨keeps_orderly.accept hb hk hg.1 rfl, ha.1, fun y leaves h hs hne p hp => ?_⟩
    cases h
    exact hg.2 hs hne p (hb.resting_iff.mpr hp)
  fill := by
    rintro b ring x leaves p hb ⟨hk, ha⟩ hside hturn hq
    refine ⟨keeps_orderly.fill hb hk hside hturn hq, apart_shrink ha (fun q hq => (live_filled x q).mp hq)
      (fun q => ⟨view_filled x q MEOrder.side, view_filled x q MEOrder.price⟩) fun y leaves' h hs => ?_⟩
    cases h
    exact absurd (hside.symm.trans hs) Side.buy_ne_sell
  fillAll := by
    rintro b ring x leaves p b' hb ⟨hk, ha⟩ hside hturn hq hrem hr hb'
    refine ⟨keeps_orderly.fillAll hb hk hside hturn hq hrem hr hb', apart_shrink ha
      (fun q hq => (live_filled x q).mp ((hr.live_iff q).mp hq).2) (fun q => ?_) fun y leaves' h hs => ?_⟩
    · rw [view_of_content MEOrder.side (hr.content q), view_of_content MEOrder.price (hr.content q)]
      exact ⟨view_filled x q MEOrder.side, view_filled x q MEOrder.price⟩
    · cases h
      exact absurd (hside.symm.trans hs) Side.buy_ne_sell
  done := by
    rintro b ring x hb ⟨hk, ha⟩
    exact ⟨keeps_orderly.done hb hk, ha.1, nofun⟩
  rest := by
    rintro b ring x leaves p b₁ s o hb ⟨hk, ha⟩ hne hex hs ho hpl hadd hb₁
    refine ⟨keeps_orderly.rest hb hk hne hex hs ho hpl hadd hb₁, ?_, nofun⟩
    obtain ⟨l, ht, -⟩ := hk
    have hself : ((b₁.indexed p o).orderPool.get p).side = x.side ∧ ((b₁.indexed p o).orderPool.get p).price = x.price := by
      rw [hadd.view MEOrder.side, hadd.view MEOrder.price, ho]
      exact ⟨rfl, rfl⟩
    have hold : ∀ q, b.orderPool.Live q → ((b₁.indexed p o).orderPool.get q).side = (b.orderPool.get q).side ∧
        ((b₁.indexed p o).orderPool.get q).price = (b.orderPool.get q).price := fun q hq =>
      ⟨view_of_content _ (hadd.content q (hadd.ne hq)), view_of_content _ (hadd.content q (hadd.ne hq))⟩
    intro q q' hq hq' hbuy hsell
    rcases (hadd.live_iff q).mp hq with rfl | hl <;> rcases (hadd.live_iff q').mp hq' with rfl | hl'
    · exact absurd (hbuy.symm.trans hsell) Side.buy_ne_sell
    · -- the new order is to buy, and everything for sale in reach is gone
      have hxs : x.side = .BUY := hself.1.symm.trans hbuy
      have hlt : x.price < (b.orderPool.get q').price :=
        ht.dearer hb rfl (ht.toLevels.inReach_of_exhausted hb hne (hex hxs)) hl' ((hold q' hl').1.symm.trans hsell)
      rw [← hself.2, ← (hold q' hl').2] at hlt
      exact hlt
    · have hlt := ha.2 x leaves rfl (hself.1.symm.trans hsell) hne q hl ((hold q hl).1.symm.trans hbuy)
      rw [← hself.2, ← (hold q hl).2] at hlt
      exact hlt
    · have hlt := ha.1 q q' hl hl' ((hold q hl).1.symm.trans hbuy) ((hold q' hl').1.symm.trans hsell)
      rw [← (hold q hl).2, ← (hold q' hl').2] at hlt
      exact hlt
  reject := by
    rintro b ring clientId orderId tickerId hb ⟨hk, ha⟩ hg
    exact ⟨keeps_orderly.reject hb hk trivial, ha.1, nofun⟩
  cancel := by
    rintro b ring clientId orderId tickerId p b₁ hb ⟨hk, ha⟩ hg hp hrem hr hb₁
    have hkeep : ∀ q, (b₁.orderPool.get q).side = (b.orderPool.get q).side ∧
        (b₁.orderPool.get q).price = (b.orderPool.get q).price := fun q =>
      ⟨view_of_content _ (hr.content q), view_of_content _ (hr.content q)⟩
    have ha₁ : Apart b₁ none := apart_shrink ha (fun q hq => ((hr.live_iff q).mp hq).2) hkeep nofun
    exact ⟨keeps_orderly.cancel hb hk trivial hp hrem hr hb₁, ha₁.1, nofun⟩

/-- In a run of clean requests whose orders to sell are above the resting bids, the book is
uncrossed after every call. -/
theorem run_uncrossed (h : Reaches call (fun b r => Clean (· = .SELL) b r ∧ AboveBids b r) (fresh strict) rs b) : b.Uncrossed := by
  have hfresh : Apart (fresh strict) none :=
    ⟨fun p q hp => by simp [fresh, MemPool.Live, MemPool.ofSize] at hp, fun x leaves e => by cases e⟩
  obtain ⟨ring, hb, -, ha, -⟩ := keeps_apart.run ⟨⟨[], tidy_fresh (· = .SELL) strict, fun x leaves e => by cases e⟩, hfresh⟩ h
  intro p q hp hq
  exact ha p q (hb.resting_iff.mp hp) (hb.resting_iff.mp hq)

/-- A bid below the only ask, and a purchase that takes the ask and rests. -/
def bidsBelow : List Request :=
  [.add 0 0 0 .SELL 100 5, .add 1 1 0 .BUY 99 4, .add 2 2 0 .BUY 100 8, .cancel 1 1 0]

theorem run_uncrossed_bidsBelow : ∃ b, Reaches call (fun b r => Clean (· = .SELL) b r ∧ AboveBids b r) (fresh true) bidsBelow b ∧
    b.Uncrossed := by
  -- the only order to sell finds an empty book
  have hcheck : ∀ b r, (∃ ring, HeapInv b ring) → decide (Clean (· = .SELL) b r ∧ (r ∈ bidsBelow.tail ∨
      ∀ s, b.priceOrdersAtPriceHashMap s = none)) = true → Clean (· = .SELL) b r ∧ AboveBids b r := by
    intro b r _ h
    obtain ⟨hclean, h⟩ := of_decide_eq_true h
    refine ⟨hclean, ?_⟩
    rcases h with hr | hempty
    · simp only [bidsBelow, List.tail_cons, List.mem_cons, List.not_mem_nil, or_false] at hr
      rcases hr with rfl | rfl | rfl
      · exact fun h => absurd h Side.buy_ne_sell
      · exact fun h => absurd h Side.buy_ne_sell
      · exact trivial
    · cases r with
      | cancel clientId orderId tickerId => exact trivial
      | add clientId clientOrderId tickerId side price qty =>
        rintro - - p ⟨s, ℓ, d, hs, -⟩
        rw [hempty s] at hs
        cases hs
  obtain ⟨b, hrun, -⟩ := exists_checkedRun hcheck true bidsBelow (fun _ => True) (by decide +kernel)
  exact ⟨b, hrun, run_uncrossed hrun⟩

/-- An order to sell below the best bid comes to rest without a trade. -/
theorem sell_meets_no_bids : ∃ b, Reaches call (fun _ _ => True) (fresh true)
    [.add 0 0 0 .BUY 100 5, .add 1 1 0 .SELL 99 5] b ∧ ¬ b.Uncrossed := by
  obtain ⟨b, hrun, hlive, hlive', hbuy, hsell, hprice, hprice'⟩ := exists_run true [.add 0 0 0 .BUY 100 5, .add 1 1 0 .SELL 99 5]
    (fun b => b.orderPool.Live 0 ∧ b.orderPool.Live 1 ∧ (b.orderPool.get 0).side = .BUY ∧ (b.orderPool.get 1).side = .SELL ∧
      (b.orderPool.get 0).price = 100 ∧ (b.orderPool.get 1).price = 99) (by decide +kernel)
  obtain ⟨⟨ring, hb⟩, -⟩ := run_heap hrun
  refine ⟨b, hrun, fun hu => ?_⟩
  have hlt := hu 0 1 (hb.resting_iff.mpr hlive) (hb.resting_iff.mpr hlive') hbuy hsell
  rw [hprice, hprice'] at hlt
  exact absurd hlt (by decide)

end TradingEcosystem.MEOrderBook
