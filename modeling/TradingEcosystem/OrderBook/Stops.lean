import TradingEcosystem.OrderBook.Cancel
import TradingEcosystem.OrderBook.Insertion
import TradingEcosystem.OrderBook.LevelPool

/-! Which calls on a book stop, and why: between clean requests a book is known well enough
to tell what any next clean request comes to. -/
namespace TradingEcosystem.MEOrderBook
open Program Runs LinkedRing MemPool
variable {priced : Side → Prop} {b b' : MEOrderBook} {ring : Slot → List OrderPtr} {l l₁ l₂ : List LevelPtr} {n h t z c a : LevelPtr}
  {ℓ : LevelPtr} {p : OrderPtr} {o : MEOrder} {x : Incoming} {leaves qty : Qty} {strict : Bool} {rs : List Request}

/-! ## A new level on a ring that may lack its last link -/

/-- A level without forward link is behind all others. -/
theorem AskRing.open_last (hr : AskRing b l) (hz : z ∈ l) (hopen : b.nextEntry z = none) :
    l.getLast? = some z ∧ ∀ ℓ ∈ l, ℓ = z ∨ b.levelPrice ℓ < b.levelPrice z := by
  obtain ⟨l₁, l₂, rfl⟩ := List.append_of_mem hz
  rcases hr.links.next_of_split with hnext | ⟨-, -, rfl, -⟩
  · rw [hopen, eq_comm, List.head?_eq_none_iff] at hnext
    simp at hnext
  · refine ⟨List.getLast?_concat, fun ℓ hℓ => ?_⟩
    rcases List.mem_append.mp hℓ with hℓ | hℓ
    · exact .inr ((List.pairwise_append.mp hr.rising).2.2 ℓ hℓ z (List.mem_singleton_self z))
    · exact .inl (List.mem_singleton.mp hℓ)

/-- How the search for the place of level `n` can end: behind all levels, in front of one that is not cheaper, or
at the missing link of one that is. -/
inductive Search (b : MEOrderBook) (l : List LevelPtr) (n h : LevelPtr) :
    EStateM.Result Fault MEOrderBook (Bool × Option LevelPtr) → Prop where
  | behind {z : LevelPtr} (below : Below b n l) (last : l.getLast? = some z) (closed : b.nextEntry z = some h) :
      Search b l n h (.ok (true, some h) b)
  | before {t : LevelPtr} (mem : t ∈ l) (dearer : ¬ b.levelPrice t < b.levelPrice n) : Search b l n h (.ok (false, some t) b)
  | lost {z : LevelPtr} (mem : z ∈ l) (opened : b.nextEntry z = none) (cheaper : b.levelPrice z < b.levelPrice n) :
      Search b l n h (.error .nullDeref b)

private theorem addAfterLoop_lost {fuel : Nat} (hn : b.Block n) :
    addAfterLoop n (some h) (fuel + 1) true none b = .error .nullDeref b := by
  have hgo : (true && none != some h) = true := rfl
  rw [addAfterLoop, hgo, if_pos rfl, bind_of_ok (level_of_block hn)]
  rfl

section Search
variable (hr : AskRing b l) (hblocks : ∀ ℓ ∈ l, b.Block ℓ) (hblock : b.Block n) (hside : b.levelSide n = .SELL)
  (hh : l.head? = some h)
include hr hblocks hblock hside hh

/-- The loop at `t`, behind cheaper levels. -/
private theorem addAfterLoop_search {fuel : Nat} (hl : l = l₁ ++ t :: l₂) (hl₁ : l₁ ≠ []) (hbelow : Below b n l₁)
    (hfuel : l₂.length + 2 ≤ fuel) : Search b l n h (addAfterLoop n (some h) fuel true (some t) b) := by
  induction fuel generalizing l₁ t l₂ with
  | zero => omega
  | succ fuel ih =>
    obtain ⟨fuel, rfl⟩ : ∃ k, fuel = k + 1 := ⟨fuel - 1, by omega⟩
    have ht : t ∈ l := by rw [hl]; simp
    have hth : t ≠ h := by
      rintro rfl
      obtain ⟨d, k, rfl⟩ := List.exists_cons_of_ne_nil hl₁
      have hd := hr.nodup
      rw [hl, List.cons_append, List.head?_cons] at hh
      rw [hl, Option.some.inj hh] at hd
      simp at hd
    rw [addAfterLoop_test hblock (hblocks t ht) hth, addAfter_sell hside]
    by_cases hlt : b.levelPrice t < b.levelPrice n
    · have hbelow' : Below b n (l₁ ++ [t]) := fun ℓ hℓ => by
        rcases List.mem_append.mp hℓ with hℓ | hℓ
        · exact hbelow ℓ hℓ
        · rw [List.mem_singleton.mp hℓ]
          exact hlt
      have hlinks := hr.links
      rw [hl] at hlinks
      rw [if_pos (decide_eq_true hlt)]
      rcases hlinks.next_of_split with hnext | ⟨-, hnext, -⟩
      · cases l₂ with
        | nil =>
          rw [List.nil_append, ← hl, hh] at hnext
          rw [hnext, addAfterLoop_round]
          rw [hl]
          exact .behind hbelow' List.getLast?_concat hnext
        | cons c l₂ =>
          have hnext : b.nextEntry t = some c := hnext
          rw [hnext]
          have hl' : l = (l₁ ++ [t]) ++ c :: l₂ := by rw [hl, List.append_assoc, List.singleton_append]
          refine ih hl' (by simp) hbelow' ?_
          rw [List.length_cons] at hfuel
          omega
      · rw [hnext, addAfterLoop_lost hblock]
        exact .lost ht hnext hlt
    · rw [if_neg (by simpa using hlt), addAfterLoop_before]
      exact .before ht hlt

theorem findTarget_search : Search b l n h (findTarget n (some h) b) := by
  obtain ⟨m, rfl⟩ := List.head?_eq_some_iff.mp hh
  have hhl : h ∈ h :: m := List.mem_cons_self
  have hlinks : Ring True b.nextEntry b.prevEntry ([] ++ h :: m) := hr.links
  have hnext := hlinks.next_of_split.resolve_right fun e => e.2.2.2 rfl
  rw [findTarget, bind_of_ok (level_of_block hblock), bind_of_ok (level_of_block (hblocks h hhl)), addAfter_sell hside]
  by_cases hlt : b.levelPrice h < b.levelPrice n
  · have hfirst : Below b n [h] := List.forall_mem_singleton.mpr hlt
    rw [if_pos (decide_eq_true hlt)]
    cases m with
    | nil =>
      have hnext : b.nextEntry h = some h := hnext
      rw [show (b.ordersAtPricePool.get h).nextEntry = some h from hnext, bind_of_ok (level_of_block (hblocks h hhl)),
        addAfter_sell hside, decide_eq_true hlt, addAfterLoop_round]
      exact .behind hfirst rfl hnext
    | cons c m =>
      have hc : c ∈ h :: c :: m := by simp
      have hnext : b.nextEntry h = some c := hnext
      rw [show (b.ordersAtPricePool.get h).nextEntry = some c from hnext, bind_of_ok (level_of_block (hblocks c hc)),
        addAfter_sell hside]
      by_cases hcn : b.levelPrice c < b.levelPrice n
      · have hlen := length_le_of_lt hr.nodup fun ℓ hℓ => (hblocks ℓ hℓ).1
        simp only [List.length_cons] at hlen
        rw [decide_eq_true hcn]
        exact addAfterLoop_search hr hblocks hblock hside hh (List.singleton_append ..).symm (by simp) hfirst (by omega)
      · rw [decide_eq_false hcn, addAfterLoop_before]
        exact .before hc hcn
  · rw [if_neg (by simpa using hlt), addAfterLoop_before]
    exact .before hhl hlt

end Search

theorem insertBefore_returns (hn : b.Block n) (ht : b.Block t) (ha : b.Block a) (hh : b.Block h) (htn : t ≠ n)
    (hprev : b.prevEntry t = some a) : ∃ b', insertBefore n (some h) (some t) b = .ok () b' := by
  have hkeep : (b.inserted n a t).Block t := by simpa [inserted] using ht
  rw [insertBefore_of_blocks hn ht ha hh htn hprev]
  split_ifs
  · rw [bind_of_ok (level_of_block hkeep), bind_of_ok (setLevel_of_block hkeep)]
    exact ⟨_, assignBestOrdersByPrice_ok.mpr rfl⟩
  · exact ⟨_, rfl⟩

theorem linkAfter_returns (hn : b.Block n) (ht : b.Block t) (hc : b.Block c) (htn : t ≠ n) (hnext : b.nextEntry t = some c) :
    ∃ b', linkAfter n (some t) b = .ok () b' := by
  rw [linkAfter, bind_of_ok (setLevel_of_block hn), bind_of_ok (level_of_block (by simpa using ht)), get_writeLevel, if_neg htn,
    show (b.ordersAtPricePool.get t).nextEntry = some c from hnext, bind_of_ok (setLevel_of_block (by simpa using hc))]
  exact ⟨_, setLevel_of_block (by simpa using ht)⟩

/-- The insertion of a level to sell returns unless a cheaper one lacks its forward link. -/
theorem AskRing.insert_stop (hr : AskRing b l) (hblocks : ∀ ℓ ∈ l, b.Block ℓ) (hn : n ∉ l) (hblock : b.Block n)
    (hside : b.levelSide n = .SELL) : stop (addOrdersAtPrice n b) =
      if ∃ z ∈ l, b.nextEntry z = none ∧ b.levelPrice z < b.levelPrice n then some .nullDeref else none := by
  have hbest : b.bestOf (b.levelSide n) = l.head? := by
    rw [hside]
    exact hr.head
  have hr₁ : AskRing (b.slotted n) l := hr.congr rfl fun _ _ => rfl
  rw [addOrdersAtPrice_of_block hblock, hbest]
  cases hh : l.head? with
  | none =>
    obtain rfl := List.head?_eq_none_iff.mp hh
    have hset := setLevel_of_block (b := { b.slotted n with asksAtPrice := some n }) (f := fun l => { l with prevEntry := some n, nextEntry := some n }) hblock
    rw [if_pos rfl, hside, assignBestOrdersByPrice, if_neg Side.sell_ne_buy, bind_of_ok (modify_apply _), hset, if_neg (by simp)]
    rfl
  | some h =>
    have hhl : h ∈ l := List.mem_of_mem_head? hh
    have hsearch := findTarget_search hr₁ hblocks hblock hside hh
    rw [if_neg (Option.some_ne_none h)]
    cases hfind : findTarget n (some h) (b.slotted n) with
    | error f b₁ =>
      rw [hfind] at hsearch
      cases hsearch with
      | @lost z mem opened cheaper =>
        rw [bind_of_error hfind, if_pos ⟨z, mem, opened, cheaper⟩]
        rfl
    | ok r b₁ =>
      rw [hfind] at hsearch
      rw [bind_of_ok hfind]
      cases hsearch with
      | @behind z below last closed =>
        have hzl := List.mem_of_getLast? last
        have hprev : (b.slotted n).prevEntry h = some z := hr₁.links.back h hh z last
        have hclosed : ¬ ∃ z ∈ l, b.nextEntry z = none ∧ b.levelPrice z < b.levelPrice n := by
          rintro ⟨y, hy, hopen, -⟩
          obtain rfl := Option.some.inj ((hr.open_last hy hopen).1.symm.trans last)
          rw [show b.nextEntry y = some h from closed] at hopen
          cases hopen
        obtain ⟨b₂, hb₂⟩ := linkAfter_returns (b := b.slotted n) hblock (hblocks z hzl) (hblocks h hhl) (ne_of_mem_of_not_mem hzl hn) closed
        have hafter : insertAfter n (some h) (some h) (b.slotted n) = .ok () b₂ := by
          rw [insertAfter, if_pos rfl, bind_of_ok (level_of_block (b := b.slotted n) (hblocks h hhl)),
            show ((b.slotted n).ordersAtPricePool.get h).prevEntry = some z from hprev]
          exact hb₂
        rw [if_neg hclosed]
        exact congrArg stop hafter
      | @before t mem dearer =>
        have hdearer : ¬ ∃ z ∈ l, b.nextEntry z = none ∧ b.levelPrice z < b.levelPrice n := by
          rintro ⟨z, hz, hopen, hlt⟩
          rcases (hr.open_last hz hopen).2 t mem with rfl | ht
          · exact dearer hlt
          · exact dearer (Int64.lt_trans ht hlt)
        obtain ⟨a, ham, hprev⟩ : ∃ a ∈ l, (b.slotted n).prevEntry t = some a := by
          obtain ⟨l₁, l₂, rfl⟩ := List.append_of_mem mem
          obtain ⟨a, ha⟩ : ∃ a, (t :: (l₂ ++ l₁)).getLast? = some a := ⟨_, List.getLast?_cons⟩
          have hmem := List.mem_of_getLast? ha
          refine ⟨a, ?_, hr₁.links.prev_of_split.trans ha⟩
          simp only [List.mem_cons, List.mem_append] at hmem ⊢
          tauto
        obtain ⟨b₂, hb₂⟩ := insertBefore_returns (b := b.slotted n) hblock (hblocks t mem) (hblocks a ham) (hblocks h hhl)
          (ne_of_mem_of_not_mem mem hn) hprev
        rw [if_neg hdearer]
        exact congrArg stop hb₂

/-! ## A remainder that comes to rest -/

/-- The order pool has a block for each order id and its cursor is on a free one. -/
abbrev OrderPool (b : MEOrderBook) : Prop := Ready ME_MAX_ORDER_IDS b.orderPool

/-- A new level to sell at `price` would be put behind one that lacks its forward link. -/
def Severed (b : MEOrderBook) (side : Side) (price : Price) : Prop :=
  side = .SELL ∧ ∃ z ∈ b.ordersAtPricePool.inUse, b.levelSide z = .SELL ∧ b.nextEntry z = none ∧ b.levelPrice z < price

instance (side : Side) (price : Price) : Decidable (b.Severed side price) := inferInstanceAs (Decidable (_ ∧ _))

instance (clientId : ClientId) (orderId : OrderId) : Decidable (InTable clientId orderId) := inferInstanceAs (Decidable (_ ∧ _))

/-- Why the remainder of order `x` does not come to rest, if it does not: a pool is down to its last block, the new
level follows a missing link, or the index has no entry for the ids. -/
def restFault (b : MEOrderBook) (x : Incoming) : Option Fault :=
  if b.orderPool.inUse.card + 1 = ME_MAX_ORDER_IDS then some outOfSpace
  else if b.priceOrdersAtPriceHashMap (priceToIndex x.price) = none ∧ b.occupied.card + 1 = ME_MAX_PRICE_LEVELS then some outOfSpace
  else if b.priceOrdersAtPriceHashMap (priceToIndex x.price) = none ∧ b.Severed x.side x.price then some .nullDeref
  else if InTable x.clientId x.clientOrderId then none
  else some .outOfRange

theorem getNextPriority_returns (hb : HeapInv b ring) (price : Price) :
    getNextPriority price b = .ok (b.priorityAfter (ring (priceToIndex price))) b := by
  obtain ⟨r, hr⟩ : ∃ r, getNextPriority price b = .ok r b := by
    rw [getNextPriority, bind_of_ok (getOrdersAtPrice_ok.mpr ⟨rfl, rfl⟩)]
    cases hℓ : b.priceOrdersAtPriceHashMap (priceToIndex price) with
    | none => exact ⟨_, rfl⟩
    | some ℓ =>
      obtain ⟨d, m, hd, hfirst⟩ := hb.head_of_level hℓ
      obtain ⟨t, ht⟩ : ∃ t, (d :: m).getLast? = some t := ⟨_, List.getLast?_cons⟩
      have hlinks := hb.links (priceToIndex price)
      rw [hd] at hlinks
      have hlive : ∀ q ∈ d :: m, b.orderPool.Live q := fun q hq => ((hb.member _ q).mp (by rw [hd]; exact hq)).1
      rw [if_neg (Option.some_ne_none ℓ), bind_of_ok (level_of_live (hb.level _ ℓ hℓ).1), hfirst,
        bind_of_ok (order_of_live (hlive d List.mem_cons_self)),
        show (b.orderPool.get d).prevOrder = some t from hlinks.back d rfl t ht,
        bind_of_ok (order_of_live (hlive t (List.mem_of_getLast? ht)))]
      exact ⟨_, rfl⟩
  rw [hr, (getNextPriority_ok hb hr).2]

theorem setCidOidToOrder_stop (clientId : ClientId) (orderId : OrderId) (q : Option OrderPtr) :
    stop (setCidOidToOrder clientId orderId q b) = if InTable clientId orderId then none else some .outOfRange := by
  unfold setCidOidToOrder
  by_cases h : clientId.toNat < ME_MAX_NUM_CLIENTS ∧ orderId.toNat < ME_MAX_ORDER_IDS
  · have htable : InTable clientId orderId := h
    rw [if_pos h, if_pos htable]
    rfl
  · have htable : ¬ InTable clientId orderId := h
    rw [if_neg h, if_neg htable]
    rfl

/-- A level that is opened for order `p` in block `n` of the pool. -/
private theorem opened_stop (hb : HeapInv b ring) (hl : Levels b l) (hsize : b.ordersAtPricePool.size = ME_MAX_PRICE_LEVELS)
    (hside : o.side = .BUY ∨ o.side = .SELL) (hbound : n < b.ordersAtPricePool.size) (hfree : ¬ b.ordersAtPricePool.Live n)
    (next next' : Nat) : stop (addOrdersAtPrice n ((b.taken p o next).opened p o n next')) =
      if b.Severed o.side o.price then some .nullDeref else none := by
  obtain ⟨b₁, hb₁⟩ : ∃ b₁, b₁ = (b.taken p o next).opened p o n next' := ⟨_, rfl⟩
  have hget : b₁.ordersAtPricePool.get n =
      { side := o.side, price := o.price, firstMeOrder := some p, prevEntry := none, nextEntry := none } := by
    rw [hb₁]
    simp [opened, taken, MemPool.get_take]
  have hold : ∀ ℓ ≠ n, b₁.ordersAtPricePool.get ℓ = b.ordersAtPricePool.get ℓ := fun ℓ hℓ => by
    rw [hb₁]
    simp [opened, taken, MemPool.get_take, hℓ]
  have hlive : ∀ ℓ, b₁.ordersAtPricePool.Live ℓ ↔ ℓ = n ∨ b.ordersAtPricePool.Live ℓ := fun ℓ => by
    rw [hb₁]
    simp [opened, taken, MemPool.live_take]
  have hblock : b₁.Block n := ⟨hbound.trans_eq hsize, fun _ => (hlive n).mpr (.inl rfl)⟩
  rw [← hb₁]
  rcases hside with hbuy | hsell
  · have hset := setLevel_of_block (f := fun l => { l with prevEntry := some n, nextEntry := some n }) (show (b₁.slotted n).Block n from hblock)
    have hbids : b₁.bestOf (b₁.levelSide n) = none := by
      rw [levelSide, hget, hb₁]
      exact (if_pos hbuy).trans hl.bids
    have hnot : ¬ b.Severed o.side o.price := fun h => Side.sell_ne_buy (h.1.symm.trans hbuy)
    rw [addOrdersAtPrice_of_block hblock, if_pos hbids, levelSide, hget, assignBestOrdersByPrice, if_pos hbuy, pure_bind, hset, if_neg hnot]
    rfl
  · have hne : ∀ ℓ ∈ l, ℓ ≠ n := fun ℓ hℓ e => hfree (e ▸ hl.live ℓ hℓ)
    have hr : AskRing b₁ l := hl.asks.congr (by rw [hb₁]; rfl) fun ℓ hℓ => by rw [levelView, hold ℓ (hne ℓ hℓ), levelView]
    have hblocks : ∀ ℓ ∈ l, b₁.Block ℓ := fun ℓ hℓ =>
      ⟨(hb.levelBound ℓ (hl.live ℓ hℓ)).trans_eq hsize, fun _ => (hlive ℓ).mpr (.inr (hl.live ℓ hℓ))⟩
    have hside : b₁.levelSide n = .SELL := by
      rw [levelSide, hget]
      exact hsell
    rw [hr.insert_stop hblocks (fun h => hne n h rfl) hblock hside]
    refine if_congr ?_ rfl rfl
    rw [Severed, and_iff_right hsell]
    refine exists_congr fun z => ⟨?_, ?_⟩
    · rintro ⟨hz, hopen, hlt⟩
      rw [nextEntry, hold z (hne z hz)] at hopen
      rw [levelPrice, levelPrice, hold z (hne z hz), hget] at hlt
      exact ⟨mem_inUse.mpr ⟨hb.levelBound z (hl.live z hz), hl.live z hz⟩, hl.asks.sides z hz, hopen, hlt⟩
    · rintro ⟨hz, hs, hopen, hlt⟩
      have hmem := hl.mem z (mem_inUse.mp hz).2 hs
      refine ⟨hmem, ?_, ?_⟩
      · rw [nextEntry, hold z (hne z hmem)]
        exact hopen
      · rw [levelPrice, levelPrice, hold z (hne z hmem), hget]
        exact hlt

private theorem linkOrder_stop (hb : HeapInv b ring) (hl : Levels b l) (hpool : b.LevelPool) (hside : o.side = .BUY ∨ o.side = .SELL)
    (hfree : ¬ b.orderPool.Live p) (next : Nat) :
    stop (linkOrder p o (b.priceOrdersAtPriceHashMap (priceToIndex o.price)) (b.taken p o next)) =
      if b.priceOrdersAtPriceHashMap (priceToIndex o.price) = none ∧ b.occupied.card + 1 = ME_MAX_PRICE_LEVELS then some outOfSpace
      else if b.priceOrdersAtPriceHashMap (priceToIndex o.price) = none ∧ b.Severed o.side o.price then some .nullDeref
      else none := by
  have hlive : ∀ q, (b.taken p o next).orderPool.Live q ↔ q = p ∨ b.orderPool.Live q := fun q => live_take ..
  cases hslot : b.priceOrdersAtPriceHashMap (priceToIndex o.price) with
  | some ℓ =>
    obtain ⟨d, m, hd, hfirst⟩ := hb.head_of_level hslot
    obtain ⟨t, ht⟩ : ∃ t, (d :: m).getLast? = some t := ⟨_, List.getLast?_cons⟩
    have hlinks := hb.links (priceToIndex o.price)
    rw [hd] at hlinks
    have hmem : ∀ q ∈ d :: m, b.orderPool.Live q := fun q hq => ((hb.member _ q).mp (by rw [hd]; exact hq)).1
    have hdlive := hmem d List.mem_cons_self
    have hprev : (b.taken p o next).prevOrder d = some t := by
      have hne : d ≠ p := fun e => hfree (e ▸ hdlive)
      rw [prevOrder, taken, get_take, if_neg hne]
      exact hlinks.back d rfl t ht
    have hlink : linkOrder p o (some ℓ) (b.taken p o next) = .ok () ((b.taken p o next).appended p t d) :=
      linkOrder_some (hb.level _ ℓ hslot).1 hfirst hprev ((hlive p).mpr (.inl rfl)) ((hlive d).mpr (.inr hdlive))
        ((hlive t).mpr (.inr (hmem t (List.mem_of_getLast? ht))))
    rw [hlink, if_neg fun h => Option.some_ne_none ℓ h.1, if_neg fun h => Option.some_ne_none ℓ h.1]
    rfl
  | none =>
    obtain ⟨lv, hlv⟩ : ∃ lv : MEOrdersAtPrice, lv =
      { side := o.side, price := o.price, firstMeOrder := some p, prevEntry := none, nextEntry := none } := ⟨_, rfl⟩
    have hstops := allocate_stops_iff lv hpool
    rw [hb.card_inUse] at hstops
    rw [linkOrder, if_pos rfl, bind_of_ok (setOrder_of_live ((hlive p).mpr (.inl rfl))), ← hlv]
    simp only [true_and]
    rcases allocate_cases lv hpool with ⟨next', -, -, -, halloc⟩ | ⟨-, halloc⟩
    · have hlevel : allocateLevel lv ((b.taken p o next).writeOrder p fun o => { o with nextOrder := some p, prevOrder := some p }) =
          .ok b.ordersAtPricePool.nextFreeIndex ((b.taken p o next).opened p o b.ordersAtPricePool.nextFreeIndex next') := by
        rw [allocateLevel, writeOrder_ordersAtPricePool, show (b.taken p o next).ordersAtPricePool = b.ordersAtPricePool from rfl, halloc,
          hlv]
        rfl
      have hroom : ¬ b.occupied.card + 1 = ME_MAX_PRICE_LEVELS := fun e => by
        obtain ⟨f, hf⟩ := hstops.mpr e
        rw [halloc] at hf
        cases hf
      rw [bind_of_ok hlevel, opened_stop hb hl hpool.size hside hpool.cursor hpool.free, if_neg hroom]
    · have hlevel : allocateLevel lv ((b.taken p o next).writeOrder p fun o => { o with nextOrder := some p, prevOrder := some p }) =
          .error outOfSpace ((b.taken p o next).writeOrder p fun o => { o with nextOrder := some p, prevOrder := some p }) := by
        rw [allocateLevel, writeOrder_ordersAtPricePool, show (b.taken p o next).ordersAtPricePool = b.ordersAtPricePool from rfl, halloc]
      rw [bind_of_error hlevel, if_pos (hstops.mp ⟨_, halloc⟩)]
      rfl

theorem rest_stop (hb : HeapInv b ring) (hl : Levels b l) (horders : b.OrderPool) (hlevels : b.LevelPool)
    (hside : x.side = .BUY ∨ x.side = .SELL) : stop (x.rest leaves b) = b.restFault x := by
  obtain ⟨o, ho⟩ : ∃ o, o = b.remainder (ring (priceToIndex x.price)) x.no x.clientId x.clientOrderId x.tickerId x.side x.price
    leaves x.id := ⟨_, rfl⟩
  have hkeys : o.side = x.side ∧ o.price = x.price ∧ o.clientId = x.clientId ∧ o.clientOrderId = x.clientOrderId := by
    rw [ho]
    exact ⟨rfl, rfl, rfl, rfl⟩
  obtain ⟨hos, hop, hoc, hok⟩ := hkeys
  have hstops := allocate_stops_iff o horders
  have hrest : x.rest leaves b = (allocateOrder o >>= fun p => addOrder p >>= fun _ => sendMarketUpdate (some x.no)
      { type := .ADD, orderId := x.id, tickerId := x.tickerId, side := x.side, price := x.price, qty := leaves,
        priority := o.priority }) b := by
    rw [Incoming.rest, MEOrderBook.rest, bind_of_ok (getNextPriority_returns hb _), ho]
    rfl
  rw [hrest, restFault]
  rcases allocate_cases o horders with ⟨next, -, -, -, halloc⟩ | ⟨-, halloc⟩
  · obtain ⟨p, hp⟩ : ∃ p, p = b.orderPool.nextFreeIndex := ⟨_, rfl⟩
    have horder : allocateOrder o b = .ok p (b.taken p o next) := by
      rw [allocateOrder, halloc, hp]
      rfl
    have hroom : ¬ b.orderPool.inUse.card + 1 = ME_MAX_ORDER_IDS := fun e => by
      obtain ⟨f, hf⟩ := hstops.mpr e
      rw [halloc] at hf
      cases hf
    have hfree : ¬ b.orderPool.Live p := by
      rw [hp]
      exact horders.free
    have hlive : (b.taken p o next).orderPool.Live p := (live_take ..).mpr (.inl rfl)
    have hget : (b.taken p o next).orderPool.get p = o := by rw [taken, get_take, if_pos rfl]
    have hadd : addOrder p (b.taken p o next) = (linkOrder p o (b.priceOrdersAtPriceHashMap (priceToIndex o.price)) >>= fun _ =>
        setCidOidToOrder o.clientId o.clientOrderId (some p)) (b.taken p o next) := by
      rw [addOrder, bind_of_ok (order_of_live hlive), hget, bind_of_ok (getOrdersAtPrice_ok.mpr ⟨rfl, rfl⟩)]
      rfl
    have hsend : stop ((addOrder p >>= fun _ => sendMarketUpdate (some x.no)
        { type := .ADD, orderId := x.id, tickerId := x.tickerId, side := x.side, price := x.price, qty := leaves,
          priority := o.priority }) (b.taken p o next)) = (stop (addOrder p (b.taken p o next))).or none :=
      stop_bind fun _ _ _ => rfl
    rw [bind_of_ok horder, hsend, Option.or_none, hadd, stop_bind fun _ _ _ => setCidOidToOrder_stop .., linkOrder_stop hb hl hlevels
      (by rw [hos]; exact hside) hfree, if_neg hroom, hos, hop, hoc, hok]
    split_ifs <;> rfl
  · have horder : allocateOrder o b = .error outOfSpace b := by rw [allocateOrder, halloc]
    rw [bind_of_error horder, if_pos (hstops.mp ⟨_, halloc⟩)]
    rfl

/-! ## The matching -/

section Loop
variable {best : MEOrderBook → Option LevelPtr} {meets : Price → Bool} {trade : Option OrderPtr → Qty → BookM Qty}
  {J : MEOrderBook → Qty → Prop} {μ : MEOrderBook → Qty → Nat}
  (first : ∀ b leaves ℓ, J b leaves → best b = some ℓ → b.ordersAtPricePool.Live ℓ ∧
    ∃ p, (b.ordersAtPricePool.get ℓ).firstMeOrder = some p ∧ b.orderPool.Live p)
  (turn : ∀ b leaves p, J b leaves → Turn best meets b leaves p →
    ∃ leaves' b', trade (some p) leaves b = .ok leaves' b' ∧ J b' leaves' ∧ μ b' leaves' < μ b leaves)
include first turn

/-- A matching loop returns if its turns do and lower a measure. -/
theorem matchLoop_returns {fuel : Nat} (hJ : J b leaves) (hfuel : μ b leaves < fuel) :
    ∃ leaves' b', matchLoop best meets trade fuel leaves b = .ok leaves' b' := by
  induction fuel generalizing b leaves with
  | zero => omega
  | succ fuel ih =>
    by_cases hdone : leaves = 0 ∨ best b = none
    · rw [matchLoop, bind_of_ok get_apply, if_pos hdone]
      exact ⟨_, _, rfl⟩
    · obtain ⟨hopen, hbest⟩ := not_or.mp hdone
      obtain ⟨ℓ, hℓ⟩ := Option.ne_none_iff_exists'.mp hbest
      obtain ⟨hlive, p, hp, hplive⟩ := first b leaves ℓ hJ hℓ
      cases hstop : meets (b.orderPool.get p).price with
      | true =>
        rw [matchLoop, bind_of_ok get_apply, if_neg hdone, hℓ, bind_of_ok (level_of_live hlive), hp, bind_of_ok (order_of_live hplive),
          hstop]
        exact ⟨_, _, rfl⟩
      | false =>
        have ht : Turn best meets b leaves p := ⟨hopen, ⟨ℓ, hℓ, fun _ => hlive, hp⟩, fun _ => hplive, hstop⟩
        obtain ⟨leaves₁, b₁, htrade, hJ₁, hlt⟩ := turn b leaves p hJ ht
        rw [matchLoop_turn ht, bind_of_ok htrade]
        exact ih hJ₁ (by omega)

end Loop

/-- The first order of the best level to sell can always leave. -/
theorem Tidy.first_removes (hb : HeapInv b ring) (ht : Tidy priced b l) (hbest : b.asksAtPrice = some ℓ)
    (hfirst : (b.ordersAtPricePool.get ℓ).firstMeOrder = some p) : b.orderPool.Live p ∧ ¬ b.LooseEnd p := by
  have hhead := ht.asks.head.symm.trans hbest
  obtain ⟨m, rfl⟩ := List.head?_eq_some_iff.mp hhead
  have hhome := hb.home ℓ (ht.live ℓ List.mem_cons_self)
  obtain ⟨d, k, hring, hd⟩ := hb.head_of_level hhome
  obtain rfl := Option.some.inj (hfirst.symm.trans hd)
  obtain ⟨hlive, hslot⟩ := (hb.member _ p).mp (by rw [hring]; exact List.mem_cons_self)
  refine ⟨hlive, ?_⟩
  rintro ⟨-, ℓ', hℓ', hnone⟩
  rw [hslot, hhome] at hℓ'
  obtain rfl := Option.some.inj hℓ'
  have hlinks : Ring True b.nextEntry b.prevEntry ([] ++ ℓ :: m) := ht.asks.links
  have hnext := hlinks.next_of_split.resolve_right fun e => e.2.2.2 rfl
  rw [hnone, eq_comm, List.head?_eq_none_iff] at hnext
  simp at hnext

/-- The turns that are left: one for each order in use, and none for a full order. -/
def turnsLeft (b : MEOrderBook) (leaves : Qty) : Nat := if leaves = 0 then 0 else b.orderPool.inUse.card

theorem Tidy.trade_returns {meets : Price → Bool} (hb : HeapInv b ring) (ht : Tidy priced b l) (hturn : Turn asksAtPrice meets b leaves p) :
    ∃ leaves' b', x.trade (some p) leaves b = .ok leaves' b' ∧ turnsLeft b' leaves' < turnsLeft b leaves := by
  obtain ⟨ℓ, hbest, -, hfirst⟩ := hturn.first
  obtain ⟨hlive, -⟩ := ht.first_removes hb hbest hfirst
  have hmem : p ∈ b.orderPool.inUse := mem_inUse.mpr ⟨hb.orderBound p hlive, hlive⟩
  have hfill := fillQty_toNat b p leaves
  obtain ⟨hleft, hrest⟩ := sub_fillQty_toNat b p leaves
  have hbefore : turnsLeft b leaves = b.orderPool.inUse.card := if_neg hturn.unfilled
  rw [hbefore, trade_apply x hturn.checked]
  by_cases hfull : (b.orderPool.get p).qty - b.fillQty p leaves = 0
  · have hnot : ¬ (b.filled x p leaves).LooseEnd p :=
      ((tidy_filled ht x p leaves).first_removes (heap_filled hb x p leaves) hbest hfirst).2
    obtain ⟨b', hr⟩ := (removes_iff (heap_filled hb x p leaves) (tidy_filled ht x p leaves) ((live_filled x p).mpr hlive)).mpr hnot
    have hset : b'.orderPool.inUse = b.orderPool.inUse.erase p := by
      rw [(heap_removeOrder (heap_filled hb x p leaves) hr).1.inUse, inUse_filled]
    have hlt : turnsLeft b' (leaves - b.fillQty p leaves) ≤ (b.orderPool.inUse.erase p).card := by
      rw [turnsLeft, hset]
      split_ifs
      · exact Nat.zero_le _
      · exact le_rfl
    refine ⟨leaves - b.fillQty p leaves, b', ?_, hlt.trans_lt (Finset.card_erase_lt_of_mem hmem)⟩
    rw [show min leaves (b.orderPool.get p).qty = b.fillQty p leaves from rfl, if_pos hfull, hr]
  · have hzero : leaves - b.fillQty p leaves = 0 := by
      have hopen : (b.orderPool.get p).qty.toNat - (b.fillQty p leaves).toNat ≠ 0 := fun e =>
        hfull (UInt32.toNat_inj.mp (hrest.trans (e.trans UInt32.toNat_zero.symm)))
      apply UInt32.toNat_inj.mp
      rw [hleft, UInt32.toNat_zero]
      omega
    refine ⟨leaves - b.fillQty p leaves, b.filled x p leaves, ?_, ?_⟩
    · rw [show min leaves (b.orderPool.get p).qty = b.fillQty p leaves from rfl, if_neg hfull]
    · rw [hzero]
      exact Finset.card_pos.mpr ⟨p, hmem⟩

/-- The matching of an order with a tidy book returns. -/
theorem matching_returns (hb : HeapInv b ring) (hsize : b.orderPool.size = ME_MAX_ORDER_IDS) (hbids : b.bidsAtPrice = none)
    (hk : Orderly priced True b ring (some (x, qty))) : ∃ leaves b', x.matching qty b = .ok leaves b' := by
  by_cases hbuy : x.side = .BUY
  · have hloop : ∃ leaves b', matchLoop asksAtPrice (tooDear x.price) x.trade (turns qty) qty b = .ok leaves b' := by
      refine matchLoop_returns (J := fun b leaves => ∃ ring, HeapInv b ring ∧ Orderly priced True b ring (some (x, leaves)))
        (μ := turnsLeft) ?_ ?_ ⟨ring, hb, hk⟩ ?_
      · rintro b leaves ℓ ⟨ring, hb, l, ht, -⟩ hbest
        have hmem : ℓ ∈ l := List.mem_of_mem_head? (ht.asks.head.symm.trans hbest)
        obtain ⟨d, k, -, hd⟩ := hb.head_of_level (hb.home ℓ (ht.live ℓ hmem))
        exact ⟨ht.live ℓ hmem, d, hd, (ht.first_removes hb hbest hd).1⟩
      · rintro b leaves p ⟨ring, hb, l, ht, hfits⟩ hturn
        obtain ⟨leaves', b', htrade, hlt⟩ := ht.trade_returns (x := x) hb hturn
        exact ⟨leaves', b', htrade, (keepsTurns_orderly True).turn ⟨ring, hb, l, ht, hfits⟩ hbuy hturn htrade, hlt⟩
      · have hcard : b.orderPool.inUse.card ≤ ME_MAX_ORDER_IDS := by
          rw [← hsize, ← Finset.card_range b.orderPool.size]
          exact Finset.card_le_card (Finset.filter_subset _ _)
        have hle : turnsLeft b qty ≤ b.orderPool.inUse.card := by
          rw [turnsLeft]
          split_ifs
          · exact Nat.zero_le _
          · exact le_rfl
        rw [turns]
        omega
    obtain ⟨leaves, b', hloop⟩ := hloop
    refine ⟨leaves, b', ?_⟩
    rw [matching_eq, matchAsks, if_pos hbuy, bind_of_ok hloop, matchBids, if_neg (by rw [hbuy]; exact Side.buy_ne_sell)]
    rfl
  · exact ⟨qty, b, matching_idle hbids (.inl hbuy)⟩

/-! ## The order pool in use -/

/-- What the order pool is allocated by: its size, its cursor and which blocks are in use. -/
def orderFlags (b : MEOrderBook) := (b.orderPool.size, b.orderPool.nextFreeIndex, b.orderPool.Live)

theorem OrderPool.congr (h : b.OrderPool) (he : orderFlags b' = orderFlags b) : b'.OrderPool := by
  simp only [orderFlags, Prod.mk.injEq] at he
  obtain ⟨hsize, hcursor, hlive⟩ := he
  refine ⟨by rw [hsize]; exact h.size, by rw [hsize, hcursor]; exact h.cursor, ?_⟩
  rw [hcursor, hlive]
  exact h.free

theorem OrderPool.removed (h : b.OrderPool) (hr : Removed b b' p) : b'.OrderPool := by
  refine ⟨hr.size.trans h.size, ?_, ?_⟩
  · rw [hr.cursor, hr.size]
    exact h.cursor
  · rw [hr.cursor, hr.live_iff]
    exact fun hl => h.free hl.2

theorem orderFlags_setOrder (f : MEOrder → MEOrder) (q : Option OrderPtr) : Frame (Fixes orderFlags) (setOrder f q) :=
  frame_setOrder (fun b p => by
    simp only [Fixes, orderFlags, writeOrder_orderPool, size_write, nextFreeIndex_write, Prod.mk.injEq, true_and]
    exact funext fun q => propext (live_write ..)) q

theorem orderFlags_of_relinks {α : Type} {y : BookM α} (h : Relinks y) : Frame (Fixes orderFlags) y :=
  h.mono fun _ _ e => e.view orderFlags fun _ => rfl

theorem orderFlags_addOrder (p : OrderPtr) : Frame (Fixes orderFlags) (addOrder p) := by
  refine .bind (frame_order _) fun o => .bind (fun _ => rfl) fun slot => .bind (.ite ?_ ?_) fun _ => ?_
  · refine .bind (orderFlags_setOrder _ _) fun _ => .bind (fun b => ?_) fun n => ?_
    · unfold allocateLevel
      split <;> rfl
    · refine .bind (frame_level _) fun l => .bind (fun _ => rfl) fun _ => orderFlags_of_relinks ?_
      refine .bind (relinks_bestOrdersByPrice _) fun best => .ite ?_ ?_
      · exact .bind (relinks_assignBestOrdersByPrice _ _) fun _ => relinks_setLevel _ fun _ => rfl
      · exact .bind (relinks_findTarget _ _) fun r => .ite (relinks_insertAfter _ _ _) (relinks_insertBefore _ _ _)
  · refine .bind (frame_level _) fun l => .bind (frame_order _) fun o => .bind (orderFlags_setOrder _ _) fun _ => ?_
    refine .bind (frame_order _) fun o => .bind (orderFlags_setOrder _ _) fun _ => ?_
    exact .bind (orderFlags_setOrder _ _) fun _ => orderFlags_setOrder _ _
  · exact .ite (fun _ => rfl) (.throw _)

theorem OrderPool.rest {u : Unit} (h : b.OrderPool) (hb : HeapInv b ring) (hr : x.rest leaves b = .ok u b') : b'.OrderPool := by
  simp only [Incoming.rest, MEOrderBook.rest, bind_eq_ok] at hr
  obtain ⟨r, b₁, hprio, p, b₂, halloc, _, b₃, hadd, hsend⟩ := hr
  obtain ⟨rfl, -⟩ := getNextPriority_ok hb hprio
  have htaken : b₂.OrderPool := by
    unfold allocateOrder at halloc
    rcases allocate_cases _ h with ⟨next, hnext, hne, hfree, he⟩ | ⟨-, he⟩ <;> rw [he] at halloc
    · cases halloc
      exact h.take hnext hne hfree
    · cases halloc
  have hadded : b₃.OrderPool := htaken.congr ((orderFlags_addOrder p).of_ok hadd)
  cases hsend
  exact hadded

theorem keepsTurns_orderPool : KeepsTurns fun b _ _ => b.OrderPool where
  fill := by
    intro b ring x leaves p hb h hside hturn hopen
    refine ⟨h.size, h.cursor, ?_⟩
    rw [live_filled]
    exact h.free
  fillAll := by
    intro b ring x leaves p b' hb h hside hturn hfull hrem hr hb'
    refine OrderPool.removed (b := b.filled x p leaves) ⟨h.size, h.cursor, ?_⟩ hr
    rw [live_filled]
    exact h.free

theorem OrderPool.call {u : Unit} {r : Request} (h : b.OrderPool) (hb : HeapInv b ring) (hbids : b.bidsAtPrice = none)
    (hr : MEOrderBook.call r b = .ok u b') : b'.OrderPool := by
  cases r with
  | add clientId clientOrderId tickerId side price qty =>
    obtain ⟨x, hx⟩ : ∃ x, x = b.incoming clientId clientOrderId tickerId side price := ⟨_, rfl⟩
    obtain ⟨b₁, leaves, hm, hend⟩ := add_ok hx hr
    obtain ⟨⟨ring₁, hb₁, h₁⟩, -⟩ := keepsTurns_orderPool.matching (heap_accepted hb x qty) hbids (h : (b.accepted x qty).OrderPool) hm
    rcases hend with ⟨-, rfl⟩ | ⟨-, hrest⟩
    · exact h₁
    · exact h₁.rest hb₁ hrest
  | cancel clientId orderId tickerId =>
    rcases cancel_ok hr with ⟨-, rfl⟩ | ⟨-, -, p, b₁, -, hrem, rfl⟩
    · exact h
    · have h₁ : b₁.OrderPool := h.removed (heap_removeOrder hb hrem).1
      exact h₁

theorem orderPool_run {guard : MEOrderBook → Request → Prop} (h : Reaches call guard (fresh strict) rs b) : b.OrderPool := by
  have hI := h.invariant (I := fun _ b => ((∃ ring, HeapInv b ring) ∧ b.bidsAtPrice = none) ∧ b.OrderPool)
    ⟨⟨⟨_, heap_fresh strict⟩, rfl⟩, rfl, Nat.two_pow_pos 20, by simp [fresh, ofSize, Live]⟩ ?_
  · exact hI.2
  · rintro _ b r b' ⟨hI, h⟩ - hr
    obtain ⟨⟨ring, hb⟩, hbids⟩ := hI
    exact ⟨heap_call ⟨⟨ring, hb⟩, hbids⟩ hr, h.call hb hbids hr⟩

/-! ## The next call -/

instance (b : MEOrderBook) (p : OrderPtr) : Decidable (b.LooseEnd p) :=
  inferInstanceAs (Decidable (_ ∧ ∃ ℓ ∈ b.priceOrdersAtPriceHashMap (b.slotOf p), b.nextEntry ℓ = none))

/-- Why a `cancel` stops, if it does. -/
def cancelFault (b : MEOrderBook) (clientId : ClientId) (orderId : OrderId) : Option Fault :=
  if clientId.toNat < ME_MAX_NUM_CLIENTS then
    if orderId.toNat < ME_MAX_ORDER_IDS then
      if ∃ p ∈ b.cidOidToOrder clientId orderId, b.LooseEnd p then some .nullDeref else none
    else some .outOfRange
  else none

/-- What a call on a book comes to: an `add` is matched, and the rest of it comes to rest unless there is a reason not to. -/
inductive Fate (b : MEOrderBook) : Request → Option Fault → Prop where
  | add {clientId : ClientId} {clientOrderId : OrderId} {tickerId : TickerId} {side : Side} {price : Price} {qty leaves : Qty}
      {x : Incoming} {b₁ : MEOrderBook} (incoming : x = b.incoming clientId clientOrderId tickerId side price)
      (matched : x.matching qty (b.accepted x qty) = .ok leaves b₁) :
      Fate b (.add clientId clientOrderId tickerId side price qty) (if leaves = 0 then none else b₁.restFault x)
  | cancel {clientId : ClientId} {orderId : OrderId} {tickerId : TickerId} :
      Fate b (.cancel clientId orderId tickerId) (b.cancelFault clientId orderId)

theorem removeOrder_loose (hb : HeapInv b ring) (ht : Tidy priced b l) (hp : b.orderPool.Live p) (hloose : b.LooseEnd p) :
    ∃ b', removeOrder (some p) b = .error .nullDeref b' := by
  obtain ⟨hself, ℓ, hℓ, hnone⟩ := hloose
  have hlive := (hb.level _ ℓ hℓ).1
  obtain ⟨b', hunlink⟩ := (ht.toLevels.unlink hlive).2 hnone
  rw [← (ht.pure p ℓ hp hℓ).1] at hunlink
  have hlevel : unlinkOrder (some p) (b.orderPool.get p) (some ℓ) b = .error .nullDeref b' := by
    rw [unlinkOrder, if_pos hself, removeOrdersAtPrice, bind_of_ok (bestOrdersByPrice_ok.mpr ⟨rfl, rfl⟩),
      bind_of_ok (getOrdersAtPrice_ok.mpr ⟨hℓ.symm, rfl⟩), bind_of_error hunlink]
  rw [removeOrder, bind_of_ok (order_of_live hp), bind_of_ok (getOrdersAtPrice_ok.mpr ⟨hℓ.symm, rfl⟩), bind_of_error hlevel]
  exact ⟨_, rfl⟩

theorem cancel_stop (hb : HeapInv b ring) (ht : Tidy priced b l) (clientId : ClientId) (orderId : OrderId) (tickerId : TickerId) :
    stop (cancel clientId orderId tickerId b) = b.cancelFault clientId orderId := by
  rw [cancelFault]
  by_cases hc : clientId.toNat < ME_MAX_NUM_CLIENTS
  · rw [if_pos hc]
    by_cases hk : orderId.toNat < ME_MAX_ORDER_IDS
    · rw [if_pos hk]
      cases hp : b.cidOidToOrder clientId orderId with
      | none =>
        rw [cancel_of_unknown fun _ => ⟨hk, hp⟩, if_neg (by simp)]
        rfl
      | some p =>
        have hlive := (hb.indexed _ _ _ hp).1
        by_cases hloose : b.LooseEnd p
        · have he : exchangeOrder clientId orderId b = .ok (some p) b := exchangeOrder_ok.mpr ⟨rfl, .inr ⟨hc, hk, hp.symm⟩⟩
          obtain ⟨b', hr⟩ := removeOrder_loose hb ht hlive hloose
          rw [cancel, bind_of_ok he, if_neg (Option.some_ne_none p), bind_of_ok (order_of_live hlive), bind_of_error hr,
            if_pos ⟨p, rfl, hloose⟩]
          rfl
        · obtain ⟨b', hr⟩ := (removes_iff hb ht hlive).mpr hloose
          rw [cancel_of_removes hc hk hp hlive hr, if_neg (by simpa using hloose)]
          rfl
    · have he : exchangeOrder clientId orderId b = .error .outOfRange b := by
        rw [exchangeOrder, if_pos hc, if_neg hk]
        rfl
      rw [cancel, bind_of_error he, if_neg hk]
      rfl
  · rw [cancel_of_unknown fun h => absurd h hc, if_neg hc]
    rfl

/-- In every book that clean requests make, what the next clean request comes to is known before its remainder rests or
its order is removed: it returns, or it stops with the fault that is told. -/
theorem run_fate {r : Request} (h : Reaches call (fun b r => Clean (fun _ => False) b r) (fresh strict) rs b)
    (hr : Clean (fun _ => False) b r) : b.Fate r (stop (call r b)) := by
  obtain ⟨ring, hb, l, ht, -⟩ := keeps_orderly.run ⟨[], tidy_fresh (fun _ => False) strict, nofun⟩ h
  have horders := orderPool_run h
  have hlevels := levelPool_run h
  cases r with
  | cancel clientId orderId tickerId =>
    rw [call, cancel_stop hb ht]
    exact .cancel
  | add clientId clientOrderId tickerId side price qty =>
    obtain ⟨x, hx⟩ : ∃ x, x = b.incoming clientId clientOrderId tickerId side price := ⟨_, rfl⟩
    have hacc := keeps_orderly.accept hb ⟨l, ht, nofun⟩ hr hx
    obtain ⟨leaves, b₁, hm⟩ := matching_returns (heap_accepted hb x qty) horders.size ht.bids hacc
    obtain ⟨⟨ring₁, hb₁, l₁, ht₁, hfits⟩, hex⟩ := (keepsTurns_orderly True).matching (heap_accepted hb x qty) ht.bids hacc hm
    obtain ⟨⟨-, -, horders₁⟩, -⟩ := keepsTurns_orderPool.matching (heap_accepted hb x qty) ht.bids (horders : (b.accepted x qty).OrderPool) hm
    have hlevels₁ : b₁.LevelPool := (keepsPool_matching x qty).of_ok hm hlevels
    have hstop : stop (call (.add clientId clientOrderId tickerId side price qty) b) = if leaves = 0 then none else b₁.restFault x := by
      rw [call, add_apply hx, bind_of_ok hm]
      by_cases hzero : leaves = 0
      · rw [if_pos hzero, if_neg (not_not_intro hzero)]
        rfl
      · obtain ⟨hside, -⟩ := (fits_iff_of_exhausted hb₁ ht₁ hzero hex).mp ((hfits x leaves rfl).mpr trivial)
        rw [if_neg hzero, if_pos hzero, rest_stop hb₁ ht₁.toLevels horders₁ hlevels₁ hside]
    rw [hstop]
    exact .add hx hm

/-- Behind the dearest of two orders to sell neither a dearer one can rest nor the dearest be cancelled. -/
theorem run_fate_dearest : ∃ b, Reaches call (fun b r => Clean (fun _ => False) b r) (fresh true)
    [.add 0 0 0 .SELL 100 5, .add 1 1 0 .SELL 101 4] b ∧
    b.Fate (.add 2 2 0 .SELL 102 3) (some .nullDeref) ∧ b.Fate (.cancel 1 1 0) (some .nullDeref) := by
  obtain ⟨b, hrun, hclean, hadd, hcancel⟩ : ∃ b, Reaches call (fun b r => Clean (fun _ => False) b r) (fresh true)
      [.add 0 0 0 .SELL 100 5, .add 1 1 0 .SELL 101 4] b ∧ Clean (fun _ => False) b (.add 2 2 0 .SELL 102 3) ∧
      stop (call (.add 2 2 0 .SELL 102 3) b) = some .nullDeref ∧ stop (call (.cancel 1 1 0) b) = some .nullDeref :=
    exists_guardedRun true _ _ (by decide +kernel)
  have hfirst := run_fate hrun hclean
  have hsecond := run_fate (r := .cancel 1 1 0) hrun trivial
  rw [hadd] at hfirst
  rw [hcancel] at hsecond
  exact ⟨b, hrun, hfirst, hsecond⟩

end TradingEcosystem.MEOrderBook
