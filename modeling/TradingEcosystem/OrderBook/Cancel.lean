import TradingEcosystem.OrderBook.Tidy

/-! What a `cancel` removes from a walk over the book. The last level that was put behind
the others has no forward link, and a cancel of its last order follows that link. -/
namespace TradingEcosystem.MEOrderBook
open Program Runs LinkedRing
variable {priced : Side → Prop} {b b' : MEOrderBook} {ring : Slot → List OrderPtr} {l : List LevelPtr} {p q : OrderPtr} {ℓ : LevelPtr}
  {strict : Bool} {rs : List Request} {clientId : ClientId} {orderId : OrderId} {tickerId : TickerId}

/-- Order `p` is alone in a level whose forward link is null. -/
def LooseEnd (b : MEOrderBook) (p : OrderPtr) : Prop :=
  b.prevOrder p = some p ∧ ∃ ℓ, b.priceOrdersAtPriceHashMap (b.slotOf p) = some ℓ ∧ b.nextEntry ℓ = none

/-- `cancel` returns, answers CANCELED with what is left of `p`, and takes `p` alone out of
the walks and out of the orders in use. -/
def CancelsExactly (b : MEOrderBook) (clientId : ClientId) (orderId : OrderId) (tickerId : TickerId) (p : OrderPtr) : Prop :=
  ∃ b', cancel clientId orderId tickerId b = .ok () b' ∧
    b'.clientResponses = b.clientResponses ++ [⟨(b.orderPool.get p).addNo,
      { type := .CANCELED, clientId, tickerId, clientOrderId := orderId, marketOrderId := (b.orderPool.get p).marketOrderId,
        side := (b.orderPool.get p).side, price := (b.orderPool.get p).price, execQty := qtyInvalid,
        leavesQty := (b.orderPool.get p).qty }⟩] ∧
    b'.walk b'.asksAtPrice = (b.walk b.asksAtPrice).erase p ∧ b'.walk b'.bidsAtPrice = (b.walk b.bidsAtPrice).erase p ∧
    (∀ q, b'.Resting q ↔ q ≠ p ∧ b.Resting q) ∧ ∀ q ≠ p, b'.content q = b.content q

/-! ## One cancel -/

/-- A removal returns unless the order is at a loose end. -/
theorem removes_iff (hb : HeapInv b ring) (ht : Tidy priced b l) (hp : b.orderPool.Live p) :
    (∃ b', removeOrder (some p) b = .ok () b') ↔ ¬ b.LooseEnd p := by
  have hself := (hb.links _).prev_self_iff (hb.nodup _) (hb.mem_slotOf hp)
  obtain ⟨ℓ, hℓ⟩ := hb.level_of_mem (hb.mem_slotOf hp)
  have hlive := (hb.level _ ℓ hℓ).1
  have hloose : b.LooseEnd p ↔ ring (b.slotOf p) = [p] ∧ b.nextEntry ℓ = none := by
    rw [LooseEnd, hself, hℓ]
    refine and_congr_right fun _ => ⟨?_, fun h => ⟨ℓ, rfl, h⟩⟩
    rintro ⟨ℓ', h', hn⟩
    rwa [Option.some.inj h']
  have hunlink : (∃ b', removeOrder (some p) b = .ok () b') ↔ ∃ b₁,
      unlinkOrder (some p) (b.orderPool.get p) (b.priceOrdersAtPriceHashMap (b.slotOf p)) b = .ok () b₁ := by
    constructor
    · rintro ⟨b', h⟩
      obtain ⟨-, -, -, b₁, hu, -⟩ := removeOrder_ok.mp h
      exact ⟨b₁, hu⟩
    · rintro ⟨b₁, hu⟩
      exact ⟨_, removeOrder_ok.mpr ⟨hp, hb.orderBound p hp, hb.keyed p hp, b₁, hu, rfl⟩⟩
  rw [hunlink, hloose]
  rcases unlinkOrder_cases hb hp with ⟨halone, he⟩ | ⟨halone, a, c, ℓ, -, -, -, -, -, he⟩
  · rw [he, and_iff_right halone]
    have hside := (ht.pure p ℓ hp hℓ).1
    constructor
    · rintro ⟨b₁, h⟩ hnone
      obtain ⟨ℓ', b₂, hℓ', hul, -, -, -⟩ := removeOrdersAtPrice_ok.mp h
      obtain rfl := Option.some.inj (hℓ.symm.trans hℓ')
      obtain ⟨b₃, he₃⟩ := (ht.toLevels.unlink hlive).2 hnone
      rw [hside, he₃] at hul
      cases hul
    · intro hnext
      obtain ⟨b₃, he₃, -⟩ := (ht.toLevels.unlink hlive).1 hnext
      rw [← hside] at he₃
      exact ⟨_, removeOrdersAtPrice_ok.mpr ⟨ℓ, b₃, hℓ, he₃, hb.levelBound ℓ hlive, hlive, rfl⟩⟩
  · exact iff_of_true ⟨_, he⟩ fun h => halone h.1

/-- A cancel of an indexed order is exact unless the order is at a loose end. -/
theorem cancelsExactly_iff (hb : HeapInv b ring) (ht : Tidy priced b l) (hp : b.cidOidToOrder clientId orderId = some p) :
    b.CancelsExactly clientId orderId tickerId p ↔ ¬ b.LooseEnd p := by
  obtain ⟨hlive, hc, hk⟩ := hb.indexed clientId orderId p hp
  have hkey := hb.keyed p hlive
  rw [hc, hk] at hkey
  rw [← removes_iff hb ht hlive]
  constructor
  · rintro ⟨b', h, -⟩
    rcases cancel_ok h with ⟨hn | hn, -⟩ | ⟨-, -, p', b₁, hp', hr, -⟩
    · exact absurd hkey.1 hn
    · rw [hp] at hn; cases hn
    · obtain rfl := Option.some.inj (hp.symm.trans hp')
      exact ⟨b₁, hr⟩
  · rintro ⟨b₁, hr⟩
    obtain ⟨hrem, hh⟩ := heap_removeOrder hb hr
    obtain ⟨l', ht', hsh⟩ := ht.remove hb hr
    have hj := hrem.journal
    simp only [journal, Prod.mk.injEq] at hj
    have hh' : HeapInv (b₁.canceled clientId orderId tickerId (b.orderPool.get p)) (b.without ring p) :=
      hh.of_eq (by simp [canceled]) (by simp [canceled]) (by simp [canceled]) (by simp [canceled])
    refine ⟨b₁.canceled clientId orderId tickerId (b.orderPool.get p), cancel_of_removes hkey.1 hkey.2 hp hlive hr, ?_, ?_, ?_,
      fun q => ?_, fun q _ => hrem.content q⟩
    · rw [canceled, reportResponses_clientResponses, reportUpdates_clientResponses, hj.1]
    · have hwalk : b₁.walk b₁.asksAtPrice = (b.walk b.asksAtPrice).erase p := walk_remove hb ht.toLevels hh ht'.toLevels hsh
      exact hwalk
    · rw [show (b₁.canceled clientId orderId tickerId (b.orderPool.get p)).bidsAtPrice = none from ht'.bids, ht.bids]
      rfl
    · rw [hh'.resting_iff, hb.resting_iff]
      exact hrem.live_iff q

/-- In every book that clean requests make, a cancel of an indexed order is exact if and
only if the order is not alone in a level without a forward link. -/
theorem run_cancelsExactly_iff (h : Reaches call (fun b r => Clean (fun _ => False) b r) (fresh strict) rs b) (clientId : ClientId)
    (orderId : OrderId) (tickerId : TickerId) (p : OrderPtr) (hp : b.cidOidToOrder clientId orderId = some p) :
    b.CancelsExactly clientId orderId tickerId p ↔ ¬ b.LooseEnd p := by
  obtain ⟨ring, hb, l, ht, -⟩ := keeps_orderly.run ⟨[], tidy_fresh (fun _ => False) strict, nofun⟩ h
  exact cancelsExactly_iff hb ht hp

/-- The dearer of two orders to sell is cancelled. -/
theorem run_cancelsExactly_dearer : ∃ b, Reaches call (fun b r => Clean (fun _ => False) b r) (fresh true)
    [.add 0 0 0 .SELL 100 5, .add 1 1 0 .SELL 99 4] b ∧ b.CancelsExactly 0 0 0 0 := by
  obtain ⟨b, hrun, hp, hslot, hnext⟩ : ∃ b, Reaches call (fun b r => Clean (fun _ => False) b r) (fresh true)
      [.add 0 0 0 .SELL 100 5, .add 1 1 0 .SELL 99 4] b ∧ b.cidOidToOrder 0 0 = some 0 ∧
      b.priceOrdersAtPriceHashMap (b.slotOf 0) = some 0 ∧ b.nextEntry 0 = some 1 :=
    exists_guardedRun true _ _ (by decide +kernel)
  refine ⟨b, hrun, (run_cancelsExactly_iff hrun 0 0 0 0 hp).mpr ?_⟩
  rintro ⟨-, ℓ, hℓ, hnone⟩
  obtain rfl := Option.some.inj (hslot.symm.trans hℓ)
  rw [hnext] at hnone
  cases hnone

/-- A level put behind the best one is at a loose end: the cancel of its order follows a
null pointer. -/
theorem cancel_behind_best : ∃ b, Reaches call (fun _ _ => True) (fresh true)
    [.add 0 0 0 .SELL 100 5, .add 1 1 0 .SELL 101 4] b ∧ b.cidOidToOrder 1 1 = some 1 ∧
    (∃ b', cancel 1 1 0 b = .error .nullDeref b') ∧ ¬ b.CancelsExactly 1 1 0 1 := by
  obtain ⟨b, hrun, hp, hstop⟩ := exists_run true [.add 0 0 0 .SELL 100 5, .add 1 1 0 .SELL 101 4]
    (fun b => b.cidOidToOrder 1 1 = some 1 ∧ stop (cancel 1 1 0 b) = some .nullDeref) (by decide +kernel)
  obtain ⟨b', herr⟩ := stop_eq_some.mp hstop
  refine ⟨b, hrun, hp, ⟨b', herr⟩, ?_⟩
  rintro ⟨b₁, h, -⟩
  rw [herr] at h
  cases h

end TradingEcosystem.MEOrderBook
