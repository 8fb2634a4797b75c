import TradingEcosystem.OrderBook.Tidy

/-! When every order hangs in a level of its own side and price. -/
namespace TradingEcosystem.MEOrderBook
open Program Runs
variable {b b' : MEOrderBook} {ring : Slot → List OrderPtr} {l : List LevelPtr} {p q : OrderPtr} {ℓ : LevelPtr} {u : Unit}
  {r : Request} {strict : Bool} {rs : List Request}

/-- Order `p` is held in the order ring of level `ℓ`. -/
def HangsIn (b : MEOrderBook) (ℓ : LevelPtr) (p : OrderPtr) : Prop :=
  ∃ s d, b.priceOrdersAtPriceHashMap s = some ℓ ∧ (b.ordersAtPricePool.get ℓ).firstMeOrder = some d ∧
    Relation.ReflTransGen (fun a c => b.nextOrder a = some c) d p

/-- Every resting order hangs in a level of its side and price, so orders of different
sides or prices share no level. -/
structure LevelsPure (b : MEOrderBook) : Prop where
  own : ∀ p, b.Resting p → ∃ ℓ, b.HangsIn ℓ p
  level : ∀ ℓ p, b.HangsIn ℓ p → b.levelSide ℓ = (b.orderPool.get p).side ∧ b.levelPrice ℓ = (b.orderPool.get p).price
  apart : ∀ ℓ p q, b.HangsIn ℓ p → b.HangsIn ℓ q →
    (b.orderPool.get p).side = (b.orderPool.get q).side ∧ (b.orderPool.get p).price = (b.orderPool.get q).price

def TwoSided : Request → Prop
  | .add _ _ _ side _ _ => side = .BUY ∨ side = .SELL
  | .cancel .. => True

instance (r : Request) : Decidable (TwoSided r) :=
  match r with
  | .add _ _ _ side _ _ => inferInstanceAs (Decidable (side = .BUY ∨ side = .SELL))
  | .cancel .. => inferInstanceAs (Decidable True)

theorem hangsIn_iff (hb : HeapInv b ring) :
    b.HangsIn ℓ p ↔ b.orderPool.Live p ∧ b.priceOrdersAtPriceHashMap (b.slotOf p) = some ℓ := by
  constructor
  · rintro ⟨s, d, hs, hd, hreach⟩
    have hh := (hb.level s ℓ hs).2.1
    rw [hd] at hh
    obtain ⟨hlive, hslot⟩ := (hb.member s p).mp (((hb.links s).reach_iff hh.symm).mp hreach)
    exact ⟨hlive, by rw [hslot]; exact hs⟩
  · rintro ⟨hlive, hs⟩
    obtain ⟨d, m, hr, hd⟩ := hb.head_of_level hs
    exact ⟨_, d, hs, hd, ((hb.links _).reach_iff (by rw [hr]; rfl)).mpr (hb.mem_slotOf hlive)⟩

theorem levelsPure_of_tidy (hb : HeapInv b ring) (ht : Tidy (fun _ => True) b l) : b.LevelsPure := by
  have hlevel : ∀ ℓ p, b.HangsIn ℓ p → b.levelSide ℓ = (b.orderPool.get p).side ∧
      b.levelPrice ℓ = (b.orderPool.get p).price := fun ℓ p h => by
    obtain ⟨hlive, hs⟩ := (hangsIn_iff hb).mp h
    obtain ⟨hside, hprice⟩ := ht.pure p ℓ hlive hs
    exact ⟨hside.symm, (hprice trivial).symm⟩
  refine ⟨fun p hp => ?_, hlevel, fun ℓ p q hp hq => ?_⟩
  · have hlive := hb.resting_iff.mp hp
    obtain ⟨ℓ, hℓ⟩ := hb.level_of_mem (hb.mem_slotOf hlive)
    exact ⟨ℓ, (hangsIn_iff hb).mpr ⟨hlive, hℓ⟩⟩
  · rw [← (hlevel ℓ p hp).1, ← (hlevel ℓ p hp).2]
    exact hlevel ℓ q hq

/-- A call that leaves every level pure was clean. -/
theorem clean_of_levelsPure (hb : HeapInv b ring) (ht : Tidy (fun _ => True) b l) (hr : TwoSided r) (h : call r b = .ok u b')
    (hp : b'.LevelsPure) : Clean (fun _ => True) b r := by
  cases r with
  | cancel clientId orderId tickerId => exact trivial
  | add clientId clientOrderId tickerId side price qty =>
    obtain ⟨x, hx⟩ : ∃ x, x = b.incoming clientId clientOrderId tickerId side price := ⟨_, rfl⟩
    have hxs : x.side = side ∧ x.price = price := by rw [hx]; exact ⟨rfl, rfl⟩
    obtain ⟨b₁, leaves, hm, hend⟩ := add_ok hx h
    have hstart : Orderly (fun _ => True) (Fits (fun _ => True) b side price qty) (b.accepted x qty) ring (some (x, qty)) := by
      refine ⟨l, ht.congr rfl rfl (fun _ => rfl) (fun _ => Iff.rfl) rfl (fun _ h => h) fun _ => ⟨rfl, rfl⟩, fun y leaves h => ?_⟩
      cases h
      rw [hxs.1, hxs.2]
      rfl
    obtain ⟨⟨ring₁, hb₁, l₁, ht₁, hfit⟩, hex⟩ :=
      (keepsTurns_orderly _).matching (heap_accepted hb x qty) ht.bids hstart hm
    refine (hfit x leaves rfl).mp ?_
    rcases hend with ⟨rfl, rfl⟩ | ⟨hne, hrest⟩
    · exact .inl rfl
    · obtain ⟨p, b₂, s, o, hs, ho, hpl, hadd, hh, rfl⟩ := rest_ok hb₁ hrest
      have ho' : o.side = x.side ∧ o.price = x.price := by rw [ho]; exact ⟨rfl, rfl⟩
      rw [fits_iff_of_exhausted hb₁ ht₁ hne hex, hxs.1]
      refine ⟨hr, fun ℓ hℓ => ?_⟩
      -- the remainder joined the level `ℓ`, which the last state shows pure
      have hjoin : b₂.priceOrdersAtPriceHashMap = b₁.priceOrdersAtPriceHashMap ∧ b₂.levelSide ℓ = b₁.levelSide ℓ ∧
          b₂.levelPrice ℓ = b₁.levelPrice ℓ := by
        cases hpl with
        | old hslot hlevels hslots hasks => exact ⟨hslots, by rw [levelSide, hlevels], by rw [levelPrice, hlevels]⟩
        | new hslot => rw [hs, hℓ] at hslot; cases hslot
      have hslot : (b₂.indexed p o).slotOf p = priceToIndex x.price := by rw [slotOf, hadd.view MEOrder.price, ho'.2]
      have hhang : (b₂.indexed p o).HangsIn ℓ p := (hangsIn_iff hh).mpr ⟨(hadd.live_iff p).mpr (.inl rfl),
        (congrArg b₂.priceOrdersAtPriceHashMap hslot).trans ((congrFun hjoin.1 _).trans hℓ)⟩
      obtain ⟨hside, hprice⟩ := hp.level ℓ p hhang
      have hps : ((b₂.indexed p o).orderPool.get p).side = side := by rw [hadd.view MEOrder.side, ho'.1, hxs.1]
      have hpp : ((b₂.indexed p o).orderPool.get p).price = x.price := by rw [hadd.view MEOrder.price, ho'.2]
      exact ⟨hjoin.2.1.symm.trans (hside.trans hps), fun _ => hjoin.2.2.symm.trans (hprice.trans hpp)⟩

/-- All along a run every order hangs in a level of its side and price if and only if no
remainder joins a level of another side or price. -/
theorem run_levelsPure_iff (h : Reaches call (fun _ r => TwoSided r) (fresh strict) rs b) :
    (∀ rs' t, rs' <+: rs → Reaches call (fun _ r => TwoSided r) (fresh strict) rs' t → t.LevelsPure) ↔
      Reaches call (fun b r => TwoSided r ∧ Clean (fun _ => True) b r) (fresh strict) rs b := by
  refine h.always_iff (Q := fun b => ∃ ring, HeapInv b ring ∧ ∃ l, Tidy (fun _ => True) b l) ⟨_, heap_fresh strict, _, tidy_fresh (fun _ => True) strict⟩
    (fun b ⟨ring, hb, l, ht⟩ => levelsPure_of_tidy hb ht) (fun b r b' ⟨ring, hb, l, ht⟩ hg hr => ⟨clean_of_levelsPure hb ht hg hr, fun hc => ?_⟩)
  obtain ⟨ring', hb', l', ht', -⟩ := keeps_orderly.returns hb ht.bids ⟨l, ht, nofun⟩ hc hr
  exact ⟨ring', hb', l', ht'⟩

/-- A slot is used again after its level was sold out. -/
def slotAgain : List Request := [.add 0 0 0 .SELL 300 5, .add 1 1 0 .BUY 301 5, .add 2 2 0 .BUY 44 3]

theorem run_levelsPure_slotAgain : ∃ b, Reaches call (fun _ r => TwoSided r) (fresh true) slotAgain b ∧
    ((∀ rs' t, rs' <+: slotAgain → Reaches call (fun _ r => TwoSided r) (fresh true) rs' t → t.LevelsPure) ↔
      Reaches call (fun b r => TwoSided r ∧ Clean (fun _ => True) b r) (fresh true) slotAgain b) := by
  obtain ⟨b, hrun, -⟩ : ∃ b, Reaches call (fun _ r => TwoSided r) (fresh true) slotAgain b ∧ True :=
    exists_guardedRun true slotAgain (fun _ => True) (by decide +kernel)
  exact ⟨b, hrun, run_levelsPure_iff hrun⟩

/-- Prices 0 and 256 share a slot, and so the level that was opened for price 0. -/
theorem shared_slot_mixes_prices : ∃ b, Reaches call (fun _ r => TwoSided r) (fresh true)
    [.add 0 0 0 .BUY 0 5, .add 1 1 0 .BUY 256 5] b ∧ ¬ b.LevelsPure := by
  obtain ⟨b, hrun, hlive, hslot, hlevel, hprice⟩ : ∃ b, Reaches call (fun _ r => TwoSided r) (fresh true)
      [.add 0 0 0 .BUY 0 5, .add 1 1 0 .BUY 256 5] b ∧ b.orderPool.Live 1 ∧
      b.priceOrdersAtPriceHashMap (b.slotOf 1) = some 0 ∧ b.levelPrice 0 = 0 ∧ (b.orderPool.get 1).price = 256 :=
    exists_guardedRun true _ _ (by decide +kernel)
  refine ⟨b, hrun, fun hp => ?_⟩
  obtain ⟨⟨ring, hb⟩, -⟩ := run_heap hrun
  have h := (hp.level 0 1 ((hangsIn_iff hb).mpr ⟨hlive, hslot⟩)).2
  rw [hlevel, hprice] at h
  exact absurd h (by decide)

end TradingEcosystem.MEOrderBook
