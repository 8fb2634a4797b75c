import TradingEcosystem.OrderBook.AskRing
import TradingEcosystem.OrderBook.Rules

/-! The levels of a book whose levels to buy are linked to themselves, and the orders met
on a walk along the levels to sell. -/
namespace TradingEcosystem.MEOrderBook
open Program Runs LinkedRing
variable {b b' : MEOrderBook} {ring : Slot → List OrderPtr} {l : List LevelPtr} {s : Slot} {p q : OrderPtr} {ℓ : LevelPtr}

/-- The levels to sell are those of the ask ring; the levels to buy are linked to themselves. -/
structure Levels (b : MEOrderBook) (l : List LevelPtr) : Prop where
  bids : b.bidsAtPrice = none
  asks : AskRing b l
  live : ∀ ℓ ∈ l, b.ordersAtPricePool.Live ℓ
  mem : ∀ ℓ, b.ordersAtPricePool.Live ℓ → b.levelSide ℓ = .SELL → ℓ ∈ l
  lone : ∀ ℓ, b.ordersAtPricePool.Live ℓ → b.levelSide ℓ = .BUY → b.nextEntry ℓ = some ℓ
  sides : ∀ ℓ, b.ordersAtPricePool.Live ℓ → b.levelSide ℓ = .BUY ∨ b.levelSide ℓ = .SELL

theorem Levels.congr (hl : Levels b l) (hbids : b'.bidsAtPrice = b.bidsAtPrice) (hasks : b'.asksAtPrice = b.asksAtPrice)
    (hview : ∀ ℓ, b'.levelView ℓ = b.levelView ℓ)
    (hlive : ∀ ℓ, b'.ordersAtPricePool.Live ℓ ↔ b.ordersAtPricePool.Live ℓ) : Levels b' l := by
  have hside : ∀ ℓ, b'.levelSide ℓ = b.levelSide ℓ := fun ℓ => view_of_level MEOrdersAtPrice.side (hview ℓ)
  refine ⟨hbids.trans hl.bids, hl.asks.congr hasks fun ℓ _ => hview ℓ, fun ℓ hℓ => (hlive ℓ).mpr (hl.live ℓ hℓ), fun ℓ hℓ hs => ?_,
    fun ℓ hℓ hs => ?_, fun ℓ hℓ => ?_⟩
  · exact hl.mem ℓ ((hlive ℓ).mp hℓ) ((hside ℓ).symm.trans hs)
  · exact (view_of_level MEOrdersAtPrice.nextEntry (hview ℓ)).trans
      (hl.lone ℓ ((hlive ℓ).mp hℓ) ((hside ℓ).symm.trans hs))
  · rw [hside]
    exact hl.sides ℓ ((hlive ℓ).mp hℓ)

theorem Levels.unlink (ht : Levels b l) (hℓ : b.ordersAtPricePool.Live ℓ) :
    (b.nextEntry ℓ ≠ none → ∃ b', unlinkLevel (b.levelSide ℓ)
        (if b.levelSide ℓ = .BUY then b.bidsAtPrice else b.asksAtPrice) (some ℓ) b = .ok () b' ∧
      AskRing b' (l.erase ℓ) ∧ ∀ q ∉ l, b'.nextEntry q = b.nextEntry q) ∧
    (b.nextEntry ℓ = none → ∃ b', unlinkLevel (b.levelSide ℓ)
      (if b.levelSide ℓ = .BUY then b.bidsAtPrice else b.asksAtPrice) (some ℓ) b = .error .nullDeref b') := by
  rcases ht.sides ℓ hℓ with hside | hside
  · have hself := ht.lone ℓ hℓ hside
    have hmem : ℓ ∉ l := fun h => Side.buy_ne_sell (hside.symm.trans (ht.asks.sides ℓ h))
    refine ⟨fun _ => ⟨b, ?_, by rw [List.erase_of_not_mem hmem]; exact ht.asks, fun _ _ => rfl⟩, fun h => ?_⟩
    · rw [hside, unlinkLevel, bind_of_ok (level_of_live hℓ), if_pos hself]
      rfl
    · rw [hself] at h; cases h
  · obtain ⟨l₁, l₂, rfl⟩ := List.append_of_mem (ht.mem ℓ hℓ hside)
    have hnot : ℓ ∉ l₁ := fun h => (List.nodup_cons.mp (List.nodup_middle.mp ht.asks.nodup)).1 (List.mem_append_left _ h)
    rw [hside, if_neg Side.sell_ne_buy, List.erase_append_right _ hnot, List.erase_cons_head]
    exact ⟨fun h => ht.asks.unlink ht.live h, fun h => ht.asks.unlink_loose ht.live h⟩

/-- The orders of a level, from the first one along `next_order_`. -/
def ordersOf (b : MEOrderBook) (ℓ : LevelPtr) : List OrderPtr :=
  match (b.ordersAtPricePool.get ℓ).firstMeOrder with
  | none => []
  | some d => walkFrom b.nextOrder d b.orderPool.size d

/-- The orders met from a best level along `next_entry_` and each level's ring. -/
def walk (b : MEOrderBook) : Option LevelPtr → List OrderPtr
  | none => []
  | some h => (walkFrom b.nextEntry h b.ordersAtPricePool.size h).flatMap b.ordersOf

/-! ## Walks -/

theorem ordersOf_eq (hb : HeapInv b ring) (hℓ : b.ordersAtPricePool.Live ℓ) :
    b.ordersOf ℓ = ring (priceToIndex (b.levelPrice ℓ)) := by
  obtain ⟨d, m, hr, hd⟩ := hb.head_of_level (hb.home ℓ hℓ)
  rw [ordersOf, hd]
  refine (hb.links _).walk_eq (hb.nodup _) (by rw [hr]; rfl) (length_le_of_lt (hb.nodup _) fun q hq => ?_)
  exact hb.orderBound q ((hb.member _ q).mp hq).1

theorem walk_asks (hb : HeapInv b ring) (hl : Levels b l) :
    b.walk b.asksAtPrice = l.flatMap fun ℓ => ring (priceToIndex (b.levelPrice ℓ)) := by
  rw [hl.asks.head]
  cases l with
  | nil => rfl
  | cons h m =>
    have hwalk : walkFrom b.nextEntry h b.ordersAtPricePool.size h = h :: m :=
      hl.asks.links.walk_eq hl.asks.nodup rfl (length_le_of_lt hl.asks.nodup fun ℓ hℓ => hb.levelBound ℓ (hl.live ℓ hℓ))
    rw [List.head?_cons, walk, hwalk]
    exact List.flatMap_congr fun ℓ hℓ => ordersOf_eq hb (hl.live ℓ hℓ)

theorem nodup_walk (hb : HeapInv b ring) (hl : Levels b l) : (b.walk b.asksAtPrice).Nodup := by
  rw [walk_asks hb hl, List.nodup_flatMap]
  refine ⟨fun ℓ _ => hb.nodup _, hl.asks.nodup.imp_of_mem fun {ℓ ℓ'} hℓ hℓ' hne p hp hp' => hne ?_⟩
  have hs := ((hb.member _ p).mp hp).2.symm.trans ((hb.member _ p).mp hp').2
  have hhome := hb.home ℓ (hl.live ℓ hℓ)
  rw [hs, hb.home ℓ' (hl.live ℓ' hℓ')] at hhome
  exact (Option.some.inj hhome).symm

end TradingEcosystem.MEOrderBook
