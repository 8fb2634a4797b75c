import TradingEcosystem.OrderBook.AskRing
import TradingEcosystem.OrderBook.Accounting
import TradingEcosystem.Library.PriceTime

/-! The matching of an order to buy against a well-formed ask side, next to the matcher that goes
along the offers of that side in price-time priority. -/
namespace TradingEcosystem.MEOrderBook
open Program LinkedRing Runs PriceTime
variable {b b' : MEOrderBook} {l l' : List (LevelPtr × List OrderPtr)} {ring ps : List OrderPtr} {ℓ : LevelPtr}
  {p q : OrderPtr} {price : Price} {x : Incoming} {leaves qty : Qty}

/-- An order in use that offers to sell at `price`, with ids in range. -/
structure AskOrder (b : MEOrderBook) (price : Price) (p : OrderPtr) : Prop where
  live : b.orderPool.Live p
  bound : p < b.orderPool.size
  side : (b.orderPool.get p).side = .SELL
  priced : (b.orderPool.get p).price = price
  keyed : (b.orderPool.get p).clientId.toNat < ME_MAX_NUM_CLIENTS ∧
    (b.orderPool.get p).clientOrderId.toNat < ME_MAX_ORDER_IDS

/-- A level in use of the asks, registered in its own slot, with its orders from the oldest one on. -/
structure AskLevel (b : MEOrderBook) (ℓ : LevelPtr) (ring : List OrderPtr) : Prop where
  live : b.ordersAtPricePool.Live ℓ
  bound : ℓ < b.ordersAtPricePool.size
  side : b.levelSide ℓ = .SELL
  slot : b.priceOrdersAtPriceHashMap (priceToIndex (b.levelPrice ℓ)) = some ℓ
  nonempty : ring ≠ []
  first : (b.ordersAtPricePool.get ℓ).firstMeOrder = ring.head?
  links : Ring False b.nextOrder b.prevOrder ring
  nodup : ring.Nodup
  orders : ∀ p ∈ ring, b.AskOrder (b.levelPrice ℓ) p

/-- The levels around the ring from `asks_at_price_` on, the cheapest first, with their orders. -/
structure AskLevels (b : MEOrderBook) (l : List (LevelPtr × List OrderPtr)) : Prop where
  head : b.asksAtPrice = (l.map Prod.fst).head?
  links : Ring False b.nextEntry b.prevEntry (l.map Prod.fst)
  rising : (l.map Prod.fst).Pairwise fun ℓ ℓ' => b.levelPrice ℓ < b.levelPrice ℓ'
  levels : ∀ y ∈ l, b.AskLevel y.1 y.2

/-- The orders of a side in line. -/
abbrev queue (l : List (LevelPtr × List OrderPtr)) : List OrderPtr := l.flatMap Prod.snd

/-- ... and each of their orders has something left. -/
structure AskSide (b : MEOrderBook) (l : List (LevelPtr × List OrderPtr)) : Prop extends AskLevels b l where
  unfilled : ∀ p ∈ queue l, (b.orderPool.get p).qty ≠ 0

def offer (b : MEOrderBook) (p : OrderPtr) : Offer OrderPtr Price :=
  ⟨p, (b.orderPool.get p).price, (b.orderPool.get p).qty.toNat⟩

/-- The asks as the offers they make. -/
def offers (b : MEOrderBook) (l : List (LevelPtr × List OrderPtr)) : List (Offer OrderPtr Price) := (queue l).map b.offer

/-- A fill as the messages about it show it. -/
def told (b : MEOrderBook) (t : Take OrderPtr Price) : Fill :=
  ⟨{ b.content t.order with price := t.price }, .ofNat t.qty, .ofNat t.leaves⟩

/-! ## What the asks are made of -/

theorem AskLevels.nodup (h : AskLevels b l) : (l.map Prod.fst).Nodup := by
  refine List.Pairwise.imp (fun {ℓ ℓ'} hlt e => ?_) h.rising
  rw [e] at hlt
  exact Int64.lt_irrefl hlt

/-- The levels behind the best one are dearer. -/
theorem AskLevels.dearer (h : AskLevels b ((ℓ, ring) :: l)) {y : LevelPtr × List OrderPtr} (hy : y ∈ l) :
    b.levelPrice ℓ < b.levelPrice y.1 :=
  (List.pairwise_cons.mp h.rising).1 y.1 (List.mem_map_of_mem hy)

theorem AskLevels.ne_best (h : AskLevels b ((ℓ, ring) :: l)) {y : LevelPtr × List OrderPtr} (hy : y ∈ l) : y.1 ≠ ℓ := by
  intro e
  have hlt := h.dearer hy
  rw [e] at hlt
  exact Int64.lt_irrefl hlt

/-- No order of the best level is in one behind it. -/
theorem AskLevels.apart (h : AskLevels b ((ℓ, ring) :: l)) (hp : p ∈ ring) (hq : q ∈ queue l) : p ≠ q := by
  rintro rfl
  obtain ⟨y, hy, hq⟩ := List.mem_flatMap.mp hq
  have hprice := ((h.levels _ (List.mem_cons_self ..)).orders p hp).priced.symm.trans
    ((h.levels y (List.mem_cons_of_mem _ hy)).orders p hq).priced
  have hlt := h.dearer hy
  rw [show b.levelPrice ℓ = b.levelPrice y.1 from hprice] at hlt
  exact Int64.lt_irrefl hlt

/-- A level that keeps its view, its slot and its orders. -/
theorem AskLevel.congr (h : AskLevel b ℓ ring) (hlive : b'.ordersAtPricePool.Live ℓ)
    (hsize : b'.ordersAtPricePool.size = b.ordersAtPricePool.size) (hside : b'.levelSide ℓ = b.levelSide ℓ)
    (hprice : b'.levelPrice ℓ = b.levelPrice ℓ)
    (hslot : b'.priceOrdersAtPriceHashMap (priceToIndex (b.levelPrice ℓ)) = some ℓ)
    (hfirst : (b'.ordersAtPricePool.get ℓ).firstMeOrder = (b.ordersAtPricePool.get ℓ).firstMeOrder)
    (hlinks : ∀ p ∈ ring, b'.nextOrder p = b.nextOrder p ∧ b'.prevOrder p = b.prevOrder p)
    (horders : ∀ p ∈ ring, b'.AskOrder (b.levelPrice ℓ) p) : AskLevel b' ℓ ring where
  live := hlive
  bound := by rw [hsize]; exact h.bound
  side := hside.trans h.side
  slot := by rw [hprice]; exact hslot
  nonempty := h.nonempty
  first := hfirst.trans h.first
  links := h.links.congr (fun p hp => (hlinks p hp).1) fun p hp => (hlinks p hp).2
  nodup := h.nodup
  orders p hp := by rw [hprice]; exact horders p hp

/-- The book tells an order of the asks from others by its content alone, but for its quantity. -/
theorem AskOrder.congr {n m : Qty} (h : AskOrder b price p) (hlive : b'.orderPool.Live p)
    (hsize : b'.orderPool.size = b.orderPool.size)
    (hcontent : { b'.content p with qty := n } = { b.content p with qty := m }) : AskOrder b' price p := by
  have hview : ∀ {γ : Type} (v : MEOrder → γ), (∀ (o : MEOrder) (n : Qty), v { o with qty := n } = v o) →
      (∀ o : MEOrder, v { o with prevOrder := none, nextOrder := none } = v o) →
      v (b'.orderPool.get p) = v (b.orderPool.get p) := fun v hq hl => by
    rw [← hl, ← hl (b.orderPool.get p)]
    exact ((hq _ n).symm.trans (congrArg v hcontent)).trans (hq _ m)
  have hkeys := hview (fun o => (o.side, o.price, o.clientId, o.clientOrderId)) (fun _ _ => rfl) fun _ => rfl
  simp only [Prod.mk.injEq] at hkeys
  exact ⟨hlive, hsize ▸ h.bound, hkeys.1 ▸ h.side, hkeys.2.1 ▸ h.priced, by rw [hkeys.2.2.1, hkeys.2.2.2]; exact h.keyed⟩

/-! ## A fill -/

theorem content_filled : { (b.filled x p leaves).content q with qty := 0 } = { b.content q with qty := 0 } := by
  rw [content, content, get_filled]
  split_ifs with h
  · rw [h]
  · rfl

theorem AskLevels.filled (h : AskLevels b l) : AskLevels (b.filled x p leaves) l where
  head := h.head
  links := h.links
  rising := h.rising
  levels y hy := by
    have hy := h.levels y hy
    refine hy.congr hy.live rfl rfl rfl hy.slot rfl (fun q _ => ?_) fun q hq => ?_
    · exact ⟨view_filled x q MEOrder.nextOrder, view_filled x q MEOrder.prevOrder⟩
    · have hq := hy.orders q hq
      exact hq.congr ((live_filled x q).mpr hq.live) rfl content_filled

/-! ## The first order of the best level leaves -/

/-- The levels with the order taken off the best one. -/
def shorten (ℓ : LevelPtr) (ps : List OrderPtr) (l : List (LevelPtr × List OrderPtr)) : List (LevelPtr × List OrderPtr) :=
  if ps = [] then l else (ℓ, ps) :: l

theorem queue_shorten : queue (shorten ℓ ps l) = ps ++ queue l := by
  unfold shorten
  split_ifs with h
  · rw [h]
    rfl
  · rfl

/-- The last order of the best level takes the level with it. -/
private theorem AskLevels.remove_last (h : AskLevels b ((ℓ, [p]) :: l)) :
    ∃ b', removeOrder (some p) b = .ok () b' ∧ AskLevels b' l ∧ ∀ q, b'.content q = b.content q := by
  have hℓ := h.levels _ (List.mem_cons_self ..)
  have hp := hℓ.orders p (List.mem_cons_self ..)
  have hself := Ring.singleton_iff.mp hℓ.links
  have hslot : b.priceOrdersAtPriceHashMap (b.slotOf p) = some ℓ := by
    rw [slotOf, hp.priced]
    exact hℓ.slot
  have hring : Ring False b.nextEntry b.prevEntry ([] ++ ℓ :: l.map Prod.fst) := h.links
  have hlive : ∀ q ∈ [] ++ ℓ :: l.map Prod.fst, b.ordersAtPricePool.Live q := fun q hq => by
    obtain ⟨y, hy, rfl⟩ := List.mem_map.mp (show q ∈ ((ℓ, [p]) :: l).map Prod.fst from hq)
    exact (h.levels y hy).live
  have hnext : b.nextEntry ℓ ≠ none := by
    rw [hring.next_of_split.resolve_right fun e => e.1]
    cases l <;> simp
  obtain ⟨b₁, hunlink, hhead, hlinks, -⟩ := unlinkLevel_ring hring h.nodup h.head hlive hnext
  have hrel := (relinks_unlinkLevel _ _ _).of_ok hunlink
  have heval : unlinkOrder (some p) (b.orderPool.get p) (b.priceOrdersAtPriceHashMap (b.slotOf p)) b = .ok () { b₁ with
      priceOrdersAtPriceHashMap := Function.update b.priceOrdersAtPriceHashMap (b.slotOf p) none
      ordersAtPricePool := b₁.ordersAtPricePool.release ℓ } := by
    rw [unlinkOrder, if_pos hself.2]
    refine removeOrdersAtPrice_ok.mpr ⟨ℓ, b₁, hslot, ?_, hℓ.bound, hℓ.live, rfl⟩
    rw [hp.side, if_neg Side.sell_ne_buy]
    exact hunlink
  refine ⟨_, removeOrder_ok.mpr ⟨hp.live, hp.bound, hp.keyed, _, heval, rfl⟩, ⟨hhead, ?_, ?_, fun y hy => ?_⟩, fun q => ?_⟩
  · exact hlinks.congr (fun q _ => by simp [nextEntry, dropped]) fun q _ => by simp [prevEntry, dropped]
  · refine (List.pairwise_cons.mp h.rising).2.imp fun hlt => ?_
    simpa [levelPrice, dropped, hrel.levelPrice] using hlt
  · have hbehind := h.levels y (List.mem_cons_of_mem _ hy)
    have hyℓ := h.ne_best hy
    have hother : priceToIndex (b.levelPrice y.1) ≠ b.slotOf p := fun e => by
      have hy' := hbehind.slot
      rw [e, hslot] at hy'
      exact hyℓ (Option.some.inj hy').symm
    refine hbehind.congr ?_ ?_ ?_ ?_ ?_ ?_ (fun q _ => ?_) fun q hq => ?_
    · simpa [dropped, MemPool.live_release, hyℓ, hrel.levelLive] using hbehind.live
    · simp [dropped, hrel.levelSize]
    · simp [levelSide, dropped, hrel.levelSide]
    · simp [levelPrice, dropped, hrel.levelPrice]
    · simpa [dropped, Function.update_of_ne hother] using hbehind.slot
    · simp [dropped, hrel.levelFirst]
    · simp [dropped, nextOrder, prevOrder, hrel.orderPool]
    · have hq' := hbehind.orders q hq
      have hne := h.apart (List.mem_cons_self ..) (List.mem_flatMap.mpr ⟨y, hy, hq⟩)
      refine hq'.congr (n := 0) (m := 0) ?_ (by simp [dropped, hrel.orderPool]) (by simp [dropped, content, hrel.orderPool])
      simpa [dropped, MemPool.live_release, hrel.orderPool, Ne.symm hne] using hq'.live
  · simp [dropped, content, hrel.orderPool]

/-- Any other first order of the best level leaves it to the next one. -/
private theorem AskLevels.remove_first (h : AskLevels b ((ℓ, p :: q :: ps) :: l)) :
    ∃ b', removeOrder (some p) b = .ok () b' ∧ AskLevels b' ((ℓ, q :: ps) :: l) ∧ ∀ r, b'.content r = b.content r := by
  have hℓ := h.levels _ (List.mem_cons_self ..)
  have hp := hℓ.orders p (List.mem_cons_self ..)
  have hslot : b.priceOrdersAtPriceHashMap (b.slotOf p) = some ℓ := by
    rw [slotOf, hp.priced]
    exact hℓ.slot
  have hring : Ring False b.nextOrder b.prevOrder ([] ++ p :: q :: ps) := hℓ.links
  obtain ⟨a, ha⟩ : ∃ a, (q :: ps).getLast? = some a := ⟨_, List.getLast?_cons⟩
  have ham : a ∈ q :: ps := List.mem_of_getLast? ha
  have hprev : b.prevOrder p = some a := by
    rw [hring.prev_of_split, List.append_nil, List.getLast?_cons_cons, ha]
  have hnext : b.nextOrder p = some q := hring.next_eq
  have hpq : ∀ r ∈ q :: ps, r ≠ p := fun r hr => ne_of_mem_of_not_mem hr (List.nodup_cons.mp hℓ.nodup).1
  have horder : ∀ r ∈ q :: ps, b.AskOrder (b.levelPrice ℓ) r := fun r hr => hℓ.orders r (List.mem_cons_of_mem _ hr)
  have heval := unlinkOrder_of_inner (o := b.orderPool.get p) (fun e => hpq a ham (Option.some.inj (hprev.symm.trans e)))
    hprev hnext hp.live (horder a ham).live (horder q (List.mem_cons_self ..)).live hℓ.live
  rw [← hslot] at heval
  obtain ⟨hlive, hsize, -, hslots, -, hasks, -⟩ := @frame_unlinked b p ℓ a q
  obtain ⟨b', hb'⟩ : ∃ b', b' = dropped (b.unlinked p a q ℓ) p (b.orderPool.get p) := ⟨_, rfl⟩
  have hlevel : ∀ y, b'.ordersAtPricePool.get y =
      if y = ℓ then { b.ordersAtPricePool.get ℓ with firstMeOrder := some q } else b.ordersAtPricePool.get y := fun y => by
    have hfirst : (b.ordersAtPricePool.get ℓ).firstMeOrder = some p := hℓ.first
    rw [hb', dropped_ordersAtPricePool, level_unlinked]
    simp only [hfirst, and_true]
  have hview : ∀ {γ : Type} (v : MEOrdersAtPrice → γ),
      (∀ (o : MEOrdersAtPrice) f, v { o with firstMeOrder := f } = v o) → ∀ y,
      v (b'.ordersAtPricePool.get y) = v (b.ordersAtPricePool.get y) := fun v hv y => by
    rw [hb']
    exact view_unlinked v hv y
  have hcontent : ∀ r, b'.content r = b.content r := fun r => by rw [hb', content_dropped, content_unlinked]
  have hframe : ∀ r ≠ p, (b'.nextOrder r = if r = a then some q else b.nextOrder r) ∧
      b'.prevOrder r = if r = q then some a else b.prevOrder r := fun r hr => by
    rw [hb', next_dropped, prev_dropped, next_unlinked hr, prev_unlinked hr]
    exact ⟨rfl, rfl⟩
  have hask : ∀ {price r}, r ≠ p → b.AskOrder price r → b'.AskOrder price r := fun {price r} hr ho => by
    refine ho.congr (n := 0) (m := 0) ?_ ?_ (by rw [hcontent])
    · rw [hb']
      exact (live_dropped r).mpr ⟨hr, (live_unlinked r).mpr ho.live⟩
    · rw [hb']
      simp [dropped, unlinked_orderPool]
  have hlevelLive : ∀ y, b'.ordersAtPricePool.Live y ↔ b.ordersAtPricePool.Live y := fun y => by
    rw [hb']
    exact hlive y
  have hslots' : b'.priceOrdersAtPriceHashMap = b.priceOrdersAtPriceHashMap := by
    rw [hb']
    exact hslots
  have hsize' : b'.ordersAtPricePool.size = b.ordersAtPricePool.size := by
    rw [hb']
    exact hsize
  have hprice : ∀ y, b'.levelPrice y = b.levelPrice y := hview MEOrdersAtPrice.price fun _ _ => rfl
  have hside : ∀ y, b'.levelSide y = b.levelSide y := hview MEOrdersAtPrice.side fun _ _ => rfl
  refine ⟨b', removeOrder_ok.mpr ⟨hp.live, hp.bound, hp.keyed, _, heval, hb'⟩, ⟨?_, ?_, ?_, ?_⟩, hcontent⟩
  · rw [hb']
    exact hasks.trans h.head
  · exact h.links.congr (fun y _ => hview MEOrdersAtPrice.nextEntry (fun _ _ => rfl) y)
      fun y _ => hview MEOrdersAtPrice.prevEntry (fun _ _ => rfl) y
  · refine h.rising.imp fun hlt => ?_
    rwa [hprice, hprice]
  · intro y hy
    rcases List.mem_cons.mp hy with rfl | hy
    · refine ⟨(hlevelLive ℓ).mpr hℓ.live, hsize' ▸ hℓ.bound, (hside ℓ).trans hℓ.side, ?_, by simp, ?_, ?_, ?_, fun r hr => ?_⟩
      · rw [hprice, hslots']
        exact hℓ.slot
      · rw [hlevel, if_pos rfl]
        rfl
      · refine hring.remove hℓ.nodup (by simp) hprev hnext ?_ ?_ (fun r hr hra => ?_) fun r hr hrq => ?_
        · rw [(hframe a (hpq a ham)).1, if_pos rfl]
        · rw [(hframe q (hpq q (List.mem_cons_self ..))).2, if_pos rfl]
        · rw [(hframe r (hpq r hr)).1, if_neg hra]
        · rw [(hframe r (hpq r hr)).2, if_neg hrq]
      · exact (List.nodup_cons.mp hℓ.nodup).2
      · rw [hprice]
        exact hask (hpq r hr) (horder r hr)
    · have hbehind := h.levels y (List.mem_cons_of_mem _ hy)
      have hyℓ : y.1 ≠ ℓ := h.ne_best hy
      have hapart : ∀ r ∈ y.2, ∀ o ∈ p :: q :: ps, r ≠ o := fun r hr o ho =>
        (h.apart ho (List.mem_flatMap.mpr ⟨y, hy, hr⟩)).symm
      refine hbehind.congr ((hlevelLive _).mpr hbehind.live) hsize' (hside _) (hprice _) ?_ ?_ (fun r hr => ?_) fun r hr => ?_
      · rw [hslots']
        exact hbehind.slot
      · rw [hlevel, if_neg hyℓ]
      · have hrp := hapart r hr p (List.mem_cons_self ..)
        rw [(hframe r hrp).1, (hframe r hrp).2, if_neg (hapart r hr a (List.mem_cons_of_mem _ ham)),
          if_neg (hapart r hr q (by simp))]
        exact ⟨rfl, rfl⟩
      · exact hask (hapart r hr p (List.mem_cons_self ..)) (hbehind.orders r hr)

theorem AskLevels.remove (h : AskLevels b ((ℓ, p :: ps) :: l)) :
    ∃ b', removeOrder (some p) b = .ok () b' ∧ AskLevels b' (shorten ℓ ps l) ∧ ∀ q, b'.content q = b.content q := by
  cases ps with
  | nil => exact h.remove_last
  | cons q ps => exact h.remove_first

/-! ## A turn -/

theorem offers_cons : b.offers ((ℓ, p :: ps) :: l) = b.offer p :: (ps ++ queue l).map b.offer := rfl

theorem qty_of_content (h : b'.content p = b.content p) : (b'.orderPool.get p).qty = (b.orderPool.get p).qty :=
  view_of_content MEOrder.qty h

theorem offer_of_content (h : b'.content p = b.content p) : b'.offer p = b.offer p := by
  rw [offer, offer, view_of_content MEOrder.price h, qty_of_content h]

theorem AskLevels.ne_first (h : AskLevels b ((ℓ, p :: ps) :: l)) (hq : q ∈ ps ++ queue l) : q ≠ p := by
  rcases List.mem_append.mp hq with hq | hq
  · exact ne_of_mem_of_not_mem hq (List.nodup_cons.mp (h.levels _ (List.mem_cons_self ..)).nodup).1
  · exact (h.apart (List.mem_cons_self ..) hq).symm

/-- The first order of the asks has more than is wanted: it stays the first one. -/
theorem AskSide.trade_part (h : AskSide b ((ℓ, p :: ps) :: l)) (hlt : leaves < (b.orderPool.get p).qty) :
    x.trade (some p) leaves b = .ok 0 (b.filled x p leaves) ∧ AskSide (b.filled x p leaves) ((ℓ, p :: ps) :: l) ∧
      (b.filled x p leaves).offers ((ℓ, p :: ps) :: l) =
        { b.offer p with qty := (b.offer p).qty - leaves.toNat } :: (ps ++ queue l).map b.offer := by
  have hmin : min leaves (b.orderPool.get p).qty = leaves := if_pos (UInt32.le_of_lt hlt)
  have hsub := UInt32.toNat_sub_of_le _ _ (UInt32.le_of_lt hlt)
  have hopen : (b.orderPool.get p).qty - leaves ≠ 0 := fun e => by
    have hlt' := UInt32.lt_iff_toNat_lt.mp hlt
    rw [e, UInt32.toNat_zero] at hsub
    omega
  have hp := (h.levels _ (List.mem_cons_self ..)).orders p (List.mem_cons_self ..)
  have hself : (b.filled x p leaves).orderPool.get p =
      { b.orderPool.get p with qty := (b.orderPool.get p).qty - leaves } := by
    rw [get_filled, if_pos rfl, hmin]
  have hother : ∀ q ∈ ps ++ queue l, (b.filled x p leaves).orderPool.get q = b.orderPool.get q := fun q hq => by
    rw [get_filled, if_neg (h.ne_first hq)]
  refine ⟨?_, ⟨h.toAskLevels.filled, fun q hq => ?_⟩, ?_⟩
  · rw [trade_apply x fun _ => hp.live, hmin, if_neg hopen, UInt32.sub_self]
  · rcases List.mem_cons.mp hq with rfl | hq
    · rw [hself]
      exact hopen
    · rw [hother q hq]
      exact h.unfilled q (List.mem_cons_of_mem _ hq)
  · refine congrArg₂ List.cons ?_ (List.map_congr_left fun q hq => ?_)
    · simp only [offer, hself, hsub]
    · simp only [offer, hother q hq]

/-- The first order of the asks has no more than is wanted: it leaves. -/
theorem AskSide.trade_all (h : AskSide b ((ℓ, p :: ps) :: l)) (hle : (b.orderPool.get p).qty ≤ leaves) :
    ∃ b', x.trade (some p) leaves b = .ok (leaves - (b.orderPool.get p).qty) b' ∧ AskSide b' (shorten ℓ ps l) ∧
      ∀ q ∈ ps ++ queue l, b'.content q = b.content q := by
  have hmin : min leaves (b.orderPool.get p).qty = (b.orderPool.get p).qty := by
    rw [← UInt32.toNat_inj, ← fillQty, fillQty_toNat, min_eq_right (UInt32.le_iff_toNat_le.mp hle)]
  have hp := (h.levels _ (List.mem_cons_self ..)).orders p (List.mem_cons_self ..)
  have hfilled : AskLevels (b.filled x p leaves) ((ℓ, p :: ps) :: l) := h.toAskLevels.filled
  obtain ⟨b', hrem, hlevels, hcontent⟩ := hfilled.remove
  have hother : ∀ q ∈ ps ++ queue l, b'.content q = b.content q := fun q hq => by
    rw [hcontent, content, get_filled, if_neg (h.ne_first hq), content]
  refine ⟨b', ?_, ⟨hlevels, fun q hq => ?_⟩, hother⟩
  · rw [trade_apply x fun _ => hp.live, hmin, UInt32.sub_self, if_pos rfl, hrem]
  · rw [queue_shorten] at hq
    rw [qty_of_content (hother q hq)]
    exact h.unfilled q (List.mem_cons_of_mem _ hq)

/-! ## The loop -/

/-- What the matching of `x` with the asks `l` comes to, next to the walk along their offers. -/
structure Matched (x : Incoming) (b : MEOrderBook) (l : List (LevelPtr × List OrderPtr)) (qty : Qty)
    (b' : MEOrderBook) (l' : List (LevelPtr × List OrderPtr)) (leaves : Qty) : Prop where
  side : AskSide b' l'
  returned : leaves.toNat = (walk x.price (b.offers l) qty.toNat).leaves
  rest : b'.offers l' = (walk x.price (b.offers l) qty.toNat).rest
  responses : b'.clientResponses = b.clientResponses ++
    (walk x.price (b.offers l) qty.toNat).takes.flatMap fun t => (b.told t).responses x
  updates : b'.marketUpdates = b.marketUpdates ++
    (walk x.price (b.offers l) qty.toNat).takes.flatMap fun t => (b.told t).updates x

/-- Nothing happens where the walk stops at once. -/
private theorem matched_idle (h : AskSide b l) (hw : walk x.price (b.offers l) qty.toNat = ⟨[], qty.toNat, b.offers l⟩) :
    Matched x b l qty b l qty := by
  refine ⟨h, ?_, ?_, ?_, ?_⟩ <;> simp [hw]

/-- The messages of a turn tell of what the walk takes there. -/
private theorem told_turn {t : Take OrderPtr Price} (ht : t = ⟨p, (b.orderPool.get p).price, (b.fillQty p leaves).toNat, qty.toNat⟩)
    (h : x.trade (some p) leaves b = .ok qty b') : b'.clientResponses = b.clientResponses ++ (b.told t).responses x ∧
      b'.marketUpdates = b.marketUpdates ++ (b.told t).updates x := by
  have htold : b.told t = ⟨b.content p, b.fillQty p leaves, qty⟩ := by
    rw [ht, told]
    simp only [UInt32.ofNat_toNat]
    rfl
  rw [htold]
  exact trade_messages h

private theorem matched_part (h : AskSide b ((ℓ, p :: ps) :: l)) (hne : leaves ≠ 0) (hprice : ¬ x.price < (b.orderPool.get p).price)
    (hlt : leaves < (b.orderPool.get p).qty) :
    Matched x b ((ℓ, p :: ps) :: l) leaves (b.filled x p leaves) ((ℓ, p :: ps) :: l) 0 := by
  obtain ⟨htrade, hside, hoffers⟩ := h.trade_part (x := x) hlt
  have hwalk : walk x.price (b.offer p :: (ps ++ queue l).map b.offer) leaves.toNat = _ :=
    walk_part (o := b.offer p) (fun e => hne (UInt32.toNat_inj.mp e)) hprice (UInt32.lt_iff_toNat_lt.mp hlt)
  rw [← offers_cons] at hwalk
  have htold := told_turn (t := ⟨p, (b.orderPool.get p).price, leaves.toNat, 0⟩) ?_ htrade
  · refine ⟨hside, ?_, ?_, ?_, ?_⟩ <;> rw [hwalk]
    · rfl
    · exact hoffers
    · rw [List.flatMap_cons, List.flatMap_nil, List.append_nil]
      exact htold.1
    · rw [List.flatMap_cons, List.flatMap_nil, List.append_nil]
      exact htold.2
  · rw [fillQty_toNat, min_eq_left (UInt32.lt_iff_toNat_lt.mp hlt).le]
    rfl

/-- The loop after a turn that used the first order up. -/
private theorem matched_all {b₁ : MEOrderBook} (hne : leaves ≠ 0)
    (hprice : ¬ x.price < (b.orderPool.get p).price) (hle : (b.orderPool.get p).qty ≤ leaves)
    (htrade : x.trade (some p) leaves b = .ok (leaves - (b.orderPool.get p).qty) b₁)
    (hcontent : ∀ q ∈ ps ++ queue l, b₁.content q = b.content q)
    (hm : Matched x b₁ (shorten ℓ ps l) (leaves - (b.orderPool.get p).qty) b' l' qty) :
    Matched x b ((ℓ, p :: ps) :: l) leaves b' l' qty := by
  have hle' := UInt32.le_iff_toNat_le.mp hle
  have hoffers : b₁.offers (shorten ℓ ps l) = (ps ++ queue l).map b.offer := by
    rw [offers, queue_shorten]
    exact List.map_congr_left fun q hq => offer_of_content (hcontent q hq)
  have hwalk : walk x.price (b.offer p :: (ps ++ queue l).map b.offer) leaves.toNat = _ :=
    walk_all (o := b.offer p) (fun e => hne (UInt32.toNat_inj.mp e)) hprice hle'
  have hleft : leaves.toNat - (b.offer p).qty = (leaves - (b.orderPool.get p).qty).toNat :=
    (UInt32.toNat_sub_of_le _ _ hle).symm
  rw [← offers_cons, hleft, ← hoffers] at hwalk
  -- later turns tell of orders that this one left alone
  have htold : ∀ t ∈ (walk x.price (b₁.offers (shorten ℓ ps l)) (leaves - (b.orderPool.get p).qty).toNat).takes,
      b₁.told t = b.told t := fun t ht => by
    obtain ⟨q, hq, he⟩ := List.mem_map.mp (hoffers ▸ order_of_take ht)
    obtain ⟨r, hr, rfl⟩ := List.mem_map.mp hq
    rw [told, told, ← he, show (b.offer r).order = r from rfl, hcontent r hr]
  obtain ⟨hresponses, hupdates⟩ := told_turn
    (t := ⟨p, (b.orderPool.get p).price, (b.orderPool.get p).qty.toNat, (leaves - (b.orderPool.get p).qty).toNat⟩)
    (by rw [fillQty_toNat, min_eq_right hle']) htrade
  refine ⟨hm.side, ?_, ?_, ?_, ?_⟩ <;> rw [hwalk]
  · exact hm.returned
  · exact hm.rest
  · rw [hm.responses, hresponses, List.append_assoc, List.flatMap_cons]
    refine congrArg (_ ++ ·) (congrArg (_ ++ ·) (List.flatMap_congr fun t ht => ?_))
    rw [htold t ht]
  · rw [hm.updates, hupdates, List.append_assoc, List.flatMap_cons]
    refine congrArg (_ ++ ·) (congrArg (_ ++ ·) (List.flatMap_congr fun t ht => ?_))
    rw [htold t ht]

/-- The loop over the asks. Each turn takes something from the incoming order, so its quantity
bounds the turns. -/
theorem matchLoop_asks {fuel : Nat} (h : AskSide b l) (hfuel : leaves.toNat < fuel) :
    ∃ b' l' leaves', matchLoop asksAtPrice (tooDear x.price) x.trade fuel leaves b = .ok leaves' b' ∧
      Matched x b l leaves b' l' leaves' := by
  induction fuel generalizing b l leaves with
  | zero => omega
  | succ fuel ih =>
    by_cases h0 : leaves = 0
    · refine ⟨b, l, leaves, ?_, matched_idle h ?_⟩
      · rw [matchLoop, bind_of_ok get_apply, if_pos (.inl h0)]
        rfl
      · rw [h0]
        exact walk_zero
    · rcases l with _ | ⟨⟨ℓ, ring⟩, l⟩
      · refine ⟨b, [], leaves, ?_, matched_idle h rfl⟩
        rw [matchLoop, bind_of_ok get_apply, if_pos (.inr h.head)]
        rfl
      · have hℓ := h.levels _ (List.mem_cons_self ..)
        obtain ⟨p, ps, rfl⟩ : ∃ p ps, ring = p :: ps := List.exists_cons_of_ne_nil hℓ.nonempty
        have hp := hℓ.orders p (List.mem_cons_self ..)
        by_cases hprice : x.price < (b.orderPool.get p).price
        · refine ⟨b, _, leaves, ?_, matched_idle h (walk_stop (.inr hprice))⟩
          have hopen : ¬ (leaves = 0 ∨ b.asksAtPrice = none) := by
            rw [h.head]
            simpa using h0
          rw [matchLoop, bind_of_ok get_apply, if_neg hopen, h.head, List.map_cons, List.head?_cons,
            bind_of_ok (level_of_live hℓ.live), hℓ.first, List.head?_cons, bind_of_ok (order_of_live hp.live),
            if_pos (decide_eq_true hprice)]
          rfl
        · have hturn : Turn asksAtPrice (tooDear x.price) b leaves p :=
            ⟨h0, ⟨ℓ, h.head, fun _ => hℓ.live, hℓ.first⟩, fun _ => hp.live, decide_eq_false hprice⟩
          by_cases hlt : leaves < (b.orderPool.get p).qty
          · obtain ⟨fuel, rfl⟩ : ∃ k, fuel = k + 1 := Nat.exists_eq_succ_of_ne_zero fun e => by
              have hpos : leaves.toNat ≠ 0 := fun e => h0 (UInt32.toNat_inj.mp e)
              omega
            refine ⟨_, _, 0, ?_, matched_part h h0 hprice hlt⟩
            rw [matchLoop_turn hturn, bind_of_ok (h.trade_part hlt).1, matchLoop, bind_of_ok get_apply, if_pos (.inl rfl)]
            rfl
          · have hle : (b.orderPool.get p).qty ≤ leaves := UInt32.not_lt.mp hlt
            obtain ⟨b₁, htrade, hside, hcontent⟩ := h.trade_all (x := x) hle
            have hsub := UInt32.toNat_sub_of_le _ _ hle
            have hpos : (b.orderPool.get p).qty.toNat ≠ 0 := fun e =>
              h.unfilled p (List.mem_cons_self ..) (UInt32.toNat_inj.mp e)
            have hle' := UInt32.le_iff_toNat_le.mp hle
            obtain ⟨b', l', leaves', hloop, hm⟩ :=
              ih hside (show (leaves - (b.orderPool.get p).qty).toNat < fuel by omega)
            refine ⟨b', l', leaves', ?_, matched_all h0 hprice hle htrade hcontent hm⟩
            rw [matchLoop_turn hturn, bind_of_ok htrade, hloop]

/-- Price-time priority: the matching of an order to buy with a well-formed ask side returns, and it
does what the walk along the offers does. -/
theorem matching_priceTime (h : AskSide b l) (hside : x.side = .BUY) : ∃ b' l' leaves, x.matching qty b = .ok leaves b' ∧
    Matched x b l qty b' l' leaves ∧ b'.bidsAtPrice = b.bidsAtPrice := by
  obtain ⟨b', l', leaves, hloop, hm⟩ : ∃ b' l' leaves,
      matchLoop asksAtPrice (tooDear x.price) x.trade (turns qty) qty b = .ok leaves b' ∧ Matched x b l qty b' l' leaves :=
    matchLoop_asks h (by unfold turns; omega)
  have heval : x.matching qty b = .ok leaves b' := by
    rw [matching_eq, matchAsks, if_pos hside, bind_of_ok hloop, matchBids, if_neg (by rw [hside]; exact Side.buy_ne_sell)]
    rfl
  have hbids := frame_matching (R := Fixes MEOrderBook.bidsAtPrice) (fun b b' e => ?_) (fun _ _ => rfl) (fun _ _ => rfl) x qty
  · exact ⟨b', l', leaves, heval, hm, hbids.of_ok heval⟩
  · simp only [journal, Prod.mk.injEq] at e
    exact e.2.2.2.2.1

/-- One of two orders to sell at 100, in a level of their own. -/
private def restingAsk (no : Nat) (clientOrderId marketOrderId : OrderId) (qty : Qty) (priority : Priority)
    (other : OrderPtr) : MEOrder :=
  { tickerId := 0, clientId := 1, clientOrderId, marketOrderId, side := .SELL, price := 100, qty, priority,
    prevOrder := some other, nextOrder := some other, addNo := some no }

private theorem askSide_of_two (hasks : b.asksAtPrice = some 0)
    (hlevel : b.ordersAtPricePool.Live 0 ∧ b.ordersAtPricePool.size = ME_MAX_PRICE_LEVELS ∧
      b.priceOrdersAtPriceHashMap (priceToIndex 100) = some 0 ∧
      b.ordersAtPricePool.get 0 = ⟨.SELL, 100, some 0, some 0, some 0⟩)
    (horders : b.orderPool.Live 0 ∧ b.orderPool.Live 1 ∧ b.orderPool.size = ME_MAX_ORDER_IDS ∧
      b.orderPool.get 0 = restingAsk 0 2 1 10 1 1 ∧ b.orderPool.get 1 = restingAsk 1 3 2 5 2 0) : AskSide b [(0, [0, 1])] := by
  obtain ⟨hlive, hsize, hslot, hget⟩ := hlevel
  obtain ⟨hlive₀, hlive₁, hsize', hget₀, hget₁⟩ := horders
  refine ⟨⟨hasks, ?_, List.pairwise_singleton _ _, ?_⟩, ?_⟩
  · refine Ring.singleton_iff.mpr ⟨?_, ?_⟩ <;> simp [nextEntry, prevEntry, hget]
  · rw [List.forall_mem_singleton]
    refine ⟨hlive, by simp [hsize, ME_MAX_PRICE_LEVELS], by simp [levelSide, hget], ?_, by simp, by simp [hget], ?_, by simp, ?_⟩
    · simpa [levelPrice, hget] using hslot
    · refine ⟨List.isChain_pair.mpr ?_, ?_, ?_⟩
      · simp [Linked, nextOrder, prevOrder, hget₀, hget₁, restingAsk]
      · simp [prevOrder, hget₀, restingAsk]
      · simp [nextOrder, hget₁, restingAsk]
    · refine List.forall_mem_cons.mpr ⟨?_, List.forall_mem_singleton.mpr ?_⟩
      · refine ⟨hlive₀, by simp [hsize', ME_MAX_ORDER_IDS], ?_, ?_, ?_⟩ <;>
          simp [hget₀, hget, levelPrice, restingAsk, ME_MAX_NUM_CLIENTS, ME_MAX_ORDER_IDS]
      · refine ⟨hlive₁, by simp [hsize', ME_MAX_ORDER_IDS], ?_, ?_, ?_⟩ <;>
          simp [hget₁, hget, levelPrice, restingAsk, ME_MAX_NUM_CLIENTS, ME_MAX_ORDER_IDS]
  · simp [queue, hget₀, hget₁, restingAsk]

/-- A BUY of 12 takes the older SELL of 10 first, and then 2 of the younger SELL of 5. -/
theorem matching_priceTime_two : ∃ b b' l' leaves, AskSide b [(0, [0, 1])] ∧
    (⟨2, 3, 4, 0, .BUY, 100, 3⟩ : Incoming).matching 12 b = .ok leaves b' ∧ AskSide b' l' ∧ leaves = 0 ∧
    b'.offers l' = [⟨1, 100, 3⟩] ∧ b'.bidsAtPrice = none := by
  obtain ⟨b, hrun, ⟨hasks, hlevel, horders⟩, hbids⟩ : ∃ b, Reaches call (fun _ _ => True) (fresh true)
      [.add 1 2 0 .SELL 100 10, .add 1 3 0 .SELL 100 5] b ∧ (b.asksAtPrice = some 0 ∧
        (b.ordersAtPricePool.Live 0 ∧ b.ordersAtPricePool.size = ME_MAX_PRICE_LEVELS ∧
          b.priceOrdersAtPriceHashMap (priceToIndex 100) = some 0 ∧
          b.ordersAtPricePool.get 0 = ⟨.SELL, 100, some 0, some 0, some 0⟩) ∧
        b.orderPool.Live 0 ∧ b.orderPool.Live 1 ∧ b.orderPool.size = ME_MAX_ORDER_IDS ∧
          b.orderPool.get 0 = restingAsk 0 2 1 10 1 1 ∧ b.orderPool.get 1 = restingAsk 1 3 2 5 2 0) ∧ b.bidsAtPrice = none :=
    exists_run true _ _ (by decide +kernel)
  have hside := askSide_of_two hasks hlevel horders
  have hoffers : b.offers [(0, [0, 1])] = [⟨0, 100, 10⟩, ⟨1, 100, 5⟩] := by
    simp [offers, queue, offer, horders.2.2.2.1, horders.2.2.2.2, restingAsk]
  obtain ⟨b', l', leaves, heval, hm, hbids'⟩ : ∃ b' l' leaves,
      (⟨2, 3, 4, 0, .BUY, 100, 3⟩ : Incoming).matching 12 b = .ok leaves b' ∧
      Matched ⟨2, 3, 4, 0, .BUY, 100, 3⟩ b [(0, [0, 1])] 12 b' l' leaves ∧ b'.bidsAtPrice = b.bidsAtPrice :=
    matching_priceTime hside rfl
  refine ⟨b, b', l', leaves, hside, heval, hm.side, UInt32.toNat_inj.mp ?_, ?_, hbids'.trans hbids⟩
  · rw [hm.returned, hoffers]
    decide
  · rw [hm.rest, hoffers]
    decide

end TradingEcosystem.MEOrderBook
