import TradingEcosystem.OrderBook.AskRing

/-! Sorted insertion of a new level into the ring of its side, whatever the side. The bids have no
code that moves their best pointer, and a level put behind the last one gets no forward link. -/
namespace TradingEcosystem.MEOrderBook
open Program LinkedRing
variable {b b' : MEOrderBook} {side : Side} {l l' l₁ l₂ : List LevelPtr} {n h t a ℓ : LevelPtr} {p q : Price}
  {r : Bool × Option LevelPtr}

/-- On its side, price `p` comes before price `q`. -/
def Ahead (side : Side) (p q : Price) : Prop := (side = .SELL ∧ p < q) ∨ (side = .BUY ∧ q < p)

instance : Decidable (Ahead side p q) := inferInstanceAs (Decidable (_ ∨ _))

theorem ahead_sell : Ahead .SELL p q ↔ p < q := by
  simp [Ahead, Side.sell_ne_buy]

theorem ahead_buy : Ahead .BUY p q ↔ q < p := by
  simp [Ahead, Side.buy_ne_sell]

theorem Ahead.asymm (h : Ahead side p q) : ¬ Ahead side q p := by
  rcases h with ⟨rfl, h⟩ | ⟨rfl, h⟩
  · rw [ahead_sell]
    exact Int64.lt_asymm h
  · rw [ahead_buy]
    exact Int64.lt_asymm h

instance : IsTrans Price (Ahead side) where
  trans p q r h h' := by
    rcases h with ⟨rfl, h⟩ | ⟨rfl, h⟩
    · exact ahead_sell.mpr (Int64.lt_trans h (ahead_sell.mp h'))
    · exact ahead_buy.mpr (Int64.lt_trans (ahead_buy.mp h') h)

theorem ahead_of_not (hside : side = .BUY ∨ side = .SELL) (hne : p ≠ q) (h : ¬ Ahead side p q) : Ahead side q p := by
  rcases hside with rfl | rfl
  · rw [ahead_buy, Int64.not_lt] at *
    exact Int64.lt_of_le_of_ne h hne
  · rw [ahead_sell, Int64.not_lt] at *
    exact Int64.lt_of_le_of_ne h hne.symm

theorem addAfter_iff {x y : MEOrdersAtPrice} : addAfter x y = true ↔ Ahead x.side y.price x.price := by
  simp [addAfter, Ahead]

/-- The best-price pointer of a side. -/
def bestOf (b : MEOrderBook) (side : Side) : Option LevelPtr := if side = .BUY then b.bidsAtPrice else b.asksAtPrice

/-- A block of the level pool that the code may follow a pointer to. -/
def Block (b : MEOrderBook) (ℓ : LevelPtr) : Prop :=
  ℓ < ME_MAX_PRICE_LEVELS ∧ (b.strict = true → b.ordersAtPricePool.Live ℓ)

instance (b : MEOrderBook) (ℓ : LevelPtr) : Decidable (b.Block ℓ) := inferInstanceAs (Decidable (_ ∧ _))

/-- `l` lists the levels of a side from its best-price pointer on, around a closed ring and in the
order of their prices. -/
structure LevelRing (b : MEOrderBook) (side : Side) (l : List LevelPtr) : Prop where
  head : b.bestOf side = l.head?
  links : Ring False b.nextEntry b.prevEntry l
  nodup : l.Nodup
  sorted : l.Pairwise fun ℓ ℓ' => Ahead side (b.levelPrice ℓ) (b.levelPrice ℓ')
  sides : ∀ ℓ ∈ l, b.levelSide ℓ = side
  blocks : ∀ ℓ ∈ l, b.Block ℓ

/-- A level as `addOrder` builds it, at a price that is not on the ring. -/
structure NewLevel (b : MEOrderBook) (side : Side) (l : List LevelPtr) (n : LevelPtr) : Prop where
  fresh : n ∉ l
  side : b.levelSide n = side
  price : ∀ ℓ ∈ l, b.levelPrice ℓ ≠ b.levelPrice n
  next : b.nextEntry n = none
  prev : b.prevEntry n = none
  block : b.Block n

theorem level_of_block (hℓ : b.Block ℓ) : level (some ℓ) b = .ok (b.ordersAtPricePool.get ℓ) b :=
  level_ok.mpr ⟨ℓ, rfl, hℓ.2, rfl, rfl⟩

theorem setLevel_of_block {f : MEOrdersAtPrice → MEOrdersAtPrice} (hℓ : b.Block ℓ) :
    setLevel f (some ℓ) b = .ok () (b.writeLevel ℓ f) := setLevel_ok.mpr ⟨ℓ, rfl, hℓ.2, rfl⟩

@[simp] theorem block_writeLevel {f : MEOrdersAtPrice → MEOrdersAtPrice} {p : LevelPtr} :
    (b.writeLevel p f).Block ℓ ↔ b.Block ℓ := by
  simp [Block]

/-! ## The search -/

/-- The levels that `n` belongs behind. -/
abbrev Behind (b : MEOrderBook) (side : Side) (n : LevelPtr) (l : List LevelPtr) : Prop :=
  ∀ ℓ ∈ l, Ahead side (b.levelPrice ℓ) (b.levelPrice n)

/-- The end of the search: `n` belongs behind all levels, or in front of `t`. -/
def SearchEnd (b : MEOrderBook) (side : Side) (l : List LevelPtr) (n h : LevelPtr) (r : Bool × Option LevelPtr) : Prop :=
  (r = (true, some h) ∧ Behind b side n l) ∨
    ∃ l₁ t l₂, l = l₁ ++ t :: l₂ ∧ r = (false, some t) ∧ Behind b side n l₁ ∧ ¬ Ahead side (b.levelPrice t) (b.levelPrice n)

/-- The forward link of a level: the next one, or the first one from the last. -/
theorem LevelRing.next_eq (hr : LevelRing b side (l₁ ++ t :: l₂)) : b.nextEntry t = (l₂ ++ (l₁ ++ [t])).head? :=
  hr.links.next_of_split.resolve_right fun e => e.1

theorem LevelRing.length_le (hr : LevelRing b side l) : l.length ≤ ME_MAX_PRICE_LEVELS :=
  length_le_of_lt hr.nodup fun ℓ hℓ => (hr.blocks ℓ hℓ).1

/-- A level that others come before is not the first one. -/
private theorem behind_first (hr : LevelRing b side l) (hh : l.head? = some h) (hl : l = l₁ ++ t :: l₂) (hl₁ : l₁ ≠ []) :
    t ≠ h ∧ b.Block t := by
  refine ⟨fun e => ?_, hr.blocks t (by rw [hl]; simp)⟩
  obtain ⟨d, k, rfl⟩ := List.exists_cons_of_ne_nil hl₁
  rw [hl, List.cons_append, List.head?_cons] at hh
  have hd := hr.nodup
  rw [hl, List.cons_append, List.nodup_cons, Option.some.inj hh, e] at hd
  simp at hd

theorem addAfterLoop_before {best target : Option LevelPtr} {fuel : Nat} :
    addAfterLoop n best (fuel + 1) false target b = .ok (false, target) b := rfl

theorem addAfterLoop_round {best : Option LevelPtr} {fuel : Nat} :
    addAfterLoop n best (fuel + 1) true best b = .ok (true, best) b := by
  have hover : (true && best != best) = false := by simp
  rw [addAfterLoop, hover]
  rfl

theorem addAfterLoop_test {fuel : Nat} (hn : b.Block n) (ht : b.Block t) (hth : t ≠ h) :
    addAfterLoop n (some h) (fuel + 1) true (some t) b =
      if addAfter (b.ordersAtPricePool.get n) (b.ordersAtPricePool.get t)
        then addAfterLoop n (some h) fuel true (b.nextEntry t) b else addAfterLoop n (some h) fuel false (some t) b := by
  have hgo : (true && some t != some h) = true := by simp [hth]
  rw [addAfterLoop, hgo, if_pos rfl, bind_of_ok (level_of_block hn), bind_of_ok (level_of_block ht)]
  split <;> rfl

section Search
variable (hnew : NewLevel b side l n)
include hnew

private theorem addAfter_new : addAfter (b.ordersAtPricePool.get n) (b.ordersAtPricePool.get t) = true ↔
    Ahead side (b.levelPrice t) (b.levelPrice n) := by
  rw [addAfter_iff, show (b.ordersAtPricePool.get n).side = side from hnew.side]

variable (hr : LevelRing b side l) (hh : l.head? = some h)
include hr hh

/-- The loop that arrives behind the first level, at `t`, with `n` belonging behind all levels
before. It tests each level once. -/
private theorem addAfterLoop_found {fuel : Nat} (hl : l = l₁ ++ t :: l₂) (hl₁ : l₁ ≠ []) (hbehind : Behind b side n l₁)
    (hfuel : l₂.length + 2 ≤ fuel) :
    ∃ r, addAfterLoop n (some h) fuel true (some t) b = .ok r b ∧ SearchEnd b side l n h r := by
  induction l₂ generalizing l₁ t fuel with
  | nil =>
    obtain ⟨fuel, rfl⟩ : ∃ k, fuel = k + 2 := ⟨fuel - 2, by rw [List.length_nil] at hfuel; omega⟩
    obtain ⟨hth, ht⟩ := behind_first hr hh hl hl₁
    rw [addAfterLoop_test hnew.block ht hth]
    by_cases hat : Ahead side (b.levelPrice t) (b.levelPrice n)
    · -- the last level: its link leads back to the best one
      have hnext : b.nextEntry t = some h := by
        rw [hl] at hr hh
        rw [hr.next_eq, List.nil_append, hh]
      rw [if_pos ((addAfter_new hnew).mpr hat), hnext, addAfterLoop_round]
      refine ⟨_, rfl, .inl ⟨rfl, fun ℓ hℓ => ?_⟩⟩
      rw [hl] at hℓ
      rcases List.mem_append.mp hℓ with hℓ | hℓ
      · exact hbehind ℓ hℓ
      · rw [List.mem_singleton.mp hℓ]
        exact hat
    · rw [if_neg fun e => hat ((addAfter_new hnew).mp e), addAfterLoop_before]
      exact ⟨_, rfl, .inr ⟨l₁, t, [], hl, rfl, hbehind, hat⟩⟩
  | cons c l₂ ih =>
    obtain ⟨fuel, rfl⟩ : ∃ k, fuel = k + 2 := ⟨fuel - 2, by omega⟩
    obtain ⟨hth, ht⟩ := behind_first hr hh hl hl₁
    rw [addAfterLoop_test hnew.block ht hth]
    by_cases hat : Ahead side (b.levelPrice t) (b.levelPrice n)
    · have hnext : b.nextEntry t = some c := by
        rw [hl] at hr
        exact hr.next_eq
      rw [if_pos ((addAfter_new hnew).mpr hat), hnext]
      have hl' : l = (l₁ ++ [t]) ++ c :: l₂ := by
        rw [hl, List.append_assoc]
        rfl
      refine ih hl' (by simp) (fun ℓ hℓ => ?_) (by rw [List.length_cons] at hfuel; omega)
      rcases List.mem_append.mp hℓ with hℓ | hℓ
      · exact hbehind ℓ hℓ
      · rw [List.mem_singleton.mp hℓ]
        exact hat
    · rw [if_neg fun e => hat ((addAfter_new hnew).mp e), addAfterLoop_before]
      exact ⟨_, rfl, .inr ⟨l₁, t, c :: l₂, hl, rfl, hbehind, hat⟩⟩

/-- The search of a new level's place returns. -/
theorem findTarget_found : ∃ r, findTarget n (some h) b = .ok r b ∧ SearchEnd b side l n h r := by
  obtain ⟨m, rfl⟩ := List.head?_eq_some_iff.mp hh
  have hfront : LevelRing b side ([] ++ h :: m) := hr
  have hblock := hr.blocks h (List.mem_cons_self ..)
  have hfuel := hr.length_le
  rw [findTarget, bind_of_ok (level_of_block hnew.block), bind_of_ok (level_of_block hblock)]
  by_cases hat : Ahead side (b.levelPrice h) (b.levelPrice n)
  · have hfirst : Behind b side n [h] := List.forall_mem_singleton.mpr hat
    rw [if_pos ((addAfter_new hnew).mpr hat)]
    cases m with
    | nil =>
      have hnext : b.nextEntry h = some h := hfront.next_eq
      rw [show (b.ordersAtPricePool.get h).nextEntry = some h from hnext, bind_of_ok (level_of_block hblock),
        (addAfter_new hnew).mpr hat, addAfterLoop_round]
      exact ⟨_, rfl, .inl ⟨rfl, hfirst⟩⟩
    | cons c m =>
      have hnext : b.nextEntry h = some c := hfront.next_eq
      rw [show (b.ordersAtPricePool.get h).nextEntry = some c from hnext,
        bind_of_ok (level_of_block (hr.blocks c (by simp)))]
      by_cases hac : Ahead side (b.levelPrice c) (b.levelPrice n)
      · rw [(addAfter_new hnew).mpr hac]
        refine addAfterLoop_found hnew hr hh (List.singleton_append ..).symm (by simp) hfirst ?_
        simp only [List.length_cons] at hfuel
        omega
      · rw [eq_false_of_ne_true fun e => hac ((addAfter_new hnew).mp e), addAfterLoop_before]
        exact ⟨_, rfl, .inr ⟨[h], c, m, rfl, rfl, hfirst, hac⟩⟩
  · rw [if_neg fun e => hat ((addAfter_new hnew).mp e), addAfterLoop_before]
    exact ⟨_, rfl, .inr ⟨[], h, m, rfl, rfl, List.forall_mem_nil _, hat⟩⟩

end Search

/-! ## The links -/

/-- A new level is put before another one: its links are set, and then its price is compared with
the best one. -/
theorem insertBefore_of_blocks (hn : b.Block n) (ht : b.Block t) (ha : b.Block a) (hh : b.Block h) (htn : t ≠ n)
    (hprev : b.prevEntry t = some a) : insertBefore n (some h) (some t) b =
      (if Ahead (b.levelSide n) (b.levelPrice n) (b.levelPrice h) then (do
        let t' ← level (some t)
        setLevel (fun l => { l with nextEntry := if t'.nextEntry = some h then some n else t'.nextEntry }) (some t)
        assignBestOrdersByPrice (b.levelSide n) (some n))
      else pure () : BookM Unit) (b.inserted n a t) := by
  obtain ⟨b₂, hb₂⟩ : ∃ b₂, b₂ = (b.writeLevel n fun l => { l with prevEntry := some a }).writeLevel n
    fun l => { l with nextEntry := some t } := ⟨_, rfl⟩
  have hget : b₂.ordersAtPricePool.get t = b.ordersAtPricePool.get t := by
    rw [hb₂, get_writeLevel, if_neg htn, get_writeLevel, if_neg htn]
  have hkeep : ∀ ℓ, (b.inserted n a t).Block ℓ ↔ b.Block ℓ := fun ℓ => by simp [inserted]
  have hside : (b.inserted n a t).levelSide n = b.levelSide n := by
    simp only [inserted, side_writeLevel, implies_true]
  have hprice : ∀ ℓ, (b.inserted n a t).levelPrice ℓ = b.levelPrice ℓ := fun ℓ => by
    simp only [inserted, price_writeLevel, implies_true]
  rw [insertBefore, bind_of_ok (level_of_block ht), show (b.ordersAtPricePool.get t).prevEntry = some a from hprev,
    bind_of_ok (setLevel_of_block hn), bind_of_ok (setLevel_of_block (by simpa using hn)), ← hb₂,
    bind_of_ok (level_of_block (by simpa [hb₂] using ht)), hget,
    show (b.ordersAtPricePool.get t).prevEntry = some a from hprev,
    bind_of_ok (setLevel_of_block (by simpa [hb₂] using ha)), bind_of_ok (setLevel_of_block (by simpa [hb₂] using ht)), hb₂,
    show ((((b.writeLevel n fun l => { l with prevEntry := some a }).writeLevel n fun l => { l with nextEntry := some t }).writeLevel a
      fun l => { l with nextEntry := some n }).writeLevel t fun l => { l with prevEntry := some n }) = b.inserted n a t from rfl,
    bind_of_ok (level_of_block ((hkeep n).mpr hn)), bind_of_ok (level_of_block ((hkeep h).mpr hh))]
  have hcond : (((b.inserted n a t).levelSide n = .BUY ∧ (b.inserted n a t).levelPrice n > (b.inserted n a t).levelPrice h) ∨
      ((b.inserted n a t).levelSide n = .SELL ∧ (b.inserted n a t).levelPrice n < (b.inserted n a t).levelPrice h)) ↔
      Ahead (b.levelSide n) (b.levelPrice n) (b.levelPrice h) := by
    rw [hside, hprice, hprice, or_comm]
    rfl
  by_cases hc : Ahead (b.levelSide n) (b.levelPrice n) (b.levelPrice h)
  · rw [if_pos hc, ← hside]
    exact congrFun (if_pos (hcond.mpr hc)) _
  · rw [if_neg hc]
    exact congrFun (if_neg fun e => hc (hcond.mp e)) _

/-- In front of the first level the best pointer moves to the new one, but only that of the asks. -/
theorem insertBefore_first (hn : b.Block n) (ht : b.Block t) (ha : b.Block a) (htn : t ≠ n) (hprev : b.prevEntry t = some a)
    (hnt : Ahead (b.levelSide n) (b.levelPrice n) (b.levelPrice t)) : insertBefore n (some t) (some t) b =
      .ok () (if b.levelSide n = .BUY then b.promoted n a t else { b.promoted n a t with asksAtPrice := some n }) := by
  have hkeep : (b.inserted n a t).Block t := by simpa [inserted] using ht
  rw [insertBefore_of_blocks hn ht ha ht htn hprev, if_pos hnt, bind_of_ok (level_of_block hkeep),
    bind_of_ok (setLevel_of_block hkeep)]
  exact assignBestOrdersByPrice_ok.mpr rfl

/-- The book with the new level in its slot. -/
def slotted (b : MEOrderBook) (n : LevelPtr) : MEOrderBook :=
  { b with
    priceOrdersAtPriceHashMap := Function.update b.priceOrdersAtPriceHashMap
      (priceToIndex (b.ordersAtPricePool.get n).price) (some n) }

theorem addOrdersAtPrice_of_block (hn : b.Block n) : addOrdersAtPrice n b =
    (if b.bestOf (b.levelSide n) = none then (do
      assignBestOrdersByPrice (b.levelSide n) (some n)
      setLevel (fun l => { l with prevEntry := some n, nextEntry := some n }) (some n))
    else (do
      let (after, target) ← findTarget n (b.bestOf (b.levelSide n))
      if after then insertAfter n (b.bestOf (b.levelSide n)) target
      else insertBefore n (b.bestOf (b.levelSide n)) target) : BookM Unit) (b.slotted n) := by
  rw [addOrdersAtPrice, bind_of_ok (level_of_block hn), bind_of_ok (setOrdersAtPrice_ok (u := ()).mpr rfl),
    bind_of_ok (bestOrdersByPrice_ok.mpr ⟨rfl, rfl⟩)]
  rfl

theorem LevelRing.slotted (hr : LevelRing b side l) (n : LevelPtr) : LevelRing (b.slotted n) side l :=
  ⟨hr.head, hr.links, hr.nodup, hr.sorted, hr.sides, hr.blocks⟩

theorem NewLevel.slotted (hnew : NewLevel b side l n) : NewLevel (b.slotted n) side l n :=
  ⟨hnew.fresh, hnew.side, hnew.price, hnew.next, hnew.prev, hnew.block⟩

/-! ## Insertion -/

/-- The insertion of `n` among the levels `l` of its side does what it is for: it returns, with a
ring of the old levels and the new one, at the prices they had, and it does not touch the best
pointer of the other side. -/
def Inserts (b : MEOrderBook) (side : Side) (l : List LevelPtr) (n : LevelPtr) : Prop :=
  ∃ b' l', addOrdersAtPrice n b = .ok () b' ∧ l'.Perm (n :: l) ∧ LevelRing b' side l' ∧
    (∀ ℓ, b'.levelPrice ℓ = b.levelPrice ℓ) ∧
    (side = .BUY → b'.asksAtPrice = b.asksAtPrice) ∧ (side = .SELL → b'.bidsAtPrice = b.bidsAtPrice)

/-- What an insertion leaves alone. -/
theorem addOrdersAtPrice_frame {u : Unit} (he : addOrdersAtPrice n b = .ok u b') :
    (∀ ℓ, b'.levelPrice ℓ = b.levelPrice ℓ) ∧ (∀ ℓ, b'.levelSide ℓ = b.levelSide ℓ) ∧ (∀ ℓ, b'.Block ℓ ↔ b.Block ℓ) ∧
    b'.bidsAtPrice = b.bidsAtPrice := by
  have hrel := addOrdersAtPrice_ok he
  have hj := (quiet_addOrdersAtPrice n).journal.of_ok he
  simp only [Fixes, journal, Prod.mk.injEq] at hj
  refine ⟨hrel.levelPrice, hrel.levelSide, fun ℓ => ?_, hj.2.2.2.2.1⟩
  rw [Block, Block, hj.2.2.2.2.2, hrel.levelLive]

private theorem inserts_of_links (hr : LevelRing b side l) (hnew : NewLevel b side l n) (hl : l = l₁ ++ t :: l₂)
    (hbehind : Behind b side n l₁) (hnt : Ahead side (b.levelPrice n) (b.levelPrice t))
    (he : addOrdersAtPrice n b = .ok () b') (hhead : b'.bestOf side = (l₁ ++ n :: t :: l₂).head?)
    (hasks : side = .BUY → b'.asksAtPrice = b.asksAtPrice) (ha : b.prevEntry t = some a)
    (hnext : ∀ q, b'.nextEntry q = if q = n then some t else if q = a then some n else b.nextEntry q)
    (hprev : ∀ q, b'.prevEntry q = if q = n then some a else if q = t then some n else b.prevEntry q) : Inserts b side l n := by
  obtain ⟨hprice, hside, hblock, hbids⟩ := addOrdersAtPrice_frame he
  subst hl
  have hperm : (l₁ ++ n :: t :: l₂).Perm (n :: (l₁ ++ t :: l₂)) := List.perm_middle
  have htrans : IsTrans LevelPtr fun ℓ ℓ' => Ahead side (b.levelPrice ℓ) (b.levelPrice ℓ') :=
    ⟨fun _ _ _ => trans_of (Ahead side)⟩
  refine ⟨b', l₁ ++ n :: t :: l₂, he, hperm, ⟨hhead, ?_, ?_, ?_, fun ℓ hℓ => ?_, fun ℓ hℓ => ?_⟩, hprice, hasks, fun _ => hbids⟩
  · exact hr.links.insert_before hr.nodup hnew.fresh ha hnext hprev
  · exact hperm.nodup_iff.mpr (List.nodup_cons.mpr ⟨hnew.fresh, hr.nodup⟩)
  · simp only [hprice]
    exact pairwise_insert hr.sorted hbehind hnt
  · rw [hside]
    rcases List.mem_cons.mp (hperm.mem_iff.mp hℓ) with rfl | hℓ
    · exact hnew.side
    · exact hr.sides ℓ hℓ
  · rw [hblock]
    rcases List.mem_cons.mp (hperm.mem_iff.mp hℓ) with rfl | hℓ
    · exact hnew.block
    · exact hr.blocks ℓ hℓ

/-- The first level to sell. -/
theorem inserts_first (hr : LevelRing b .SELL []) (hnew : NewLevel b .SELL [] n) : Inserts b .SELL [] n := by
  have hbest : b.bestOf (b.levelSide n) = none := by
    rw [hnew.side]
    exact hr.head
  have he : addOrdersAtPrice n b = .ok () ({ b.slotted n with asksAtPrice := some n }.writeLevel n
      fun l => { l with prevEntry := some n, nextEntry := some n }) := by
    rw [addOrdersAtPrice_of_block hnew.block, if_pos hbest, hnew.side, assignBestOrdersByPrice, if_neg Side.sell_ne_buy,
      bind_of_ok (modify_apply _)]
    exact setLevel_of_block hnew.block
  obtain ⟨hprice, hside, hblock, hbids⟩ := addOrdersAtPrice_frame he
  refine ⟨_, [n], he, .refl _, ⟨rfl, Ring.singleton_iff.mpr ⟨?_, ?_⟩, List.nodup_singleton n, List.pairwise_singleton _ _,
    ?_, ?_⟩, hprice, fun e => absurd e Side.sell_ne_buy, fun _ => hbids⟩
  · rw [next_writeLevel, if_pos rfl]
  · rw [prev_writeLevel, if_pos rfl]
  · rw [List.forall_mem_singleton, hside]
    exact hnew.side
  · rw [List.forall_mem_singleton, hblock]
    exact hnew.block

/-- A new level that some level belongs behind, and that is not better than all bids. -/
theorem inserts_inner (hside : side = .BUY ∨ side = .SELL) (hr : LevelRing b side l) (hnew : NewLevel b side l n)
    (hbehind : ∃ ℓ ∈ l, Ahead side (b.levelPrice n) (b.levelPrice ℓ))
    (hbids : side = .BUY → ∃ ℓ ∈ l, Ahead side (b.levelPrice ℓ) (b.levelPrice n)) : Inserts b side l n := by
  obtain ⟨o, ho, hno⟩ := hbehind
  obtain ⟨h, m, hl⟩ := List.exists_cons_of_ne_nil (List.ne_nil_of_mem ho)
  have hh : l.head? = some h := by rw [hl]; rfl
  have hbest : b.bestOf side = some h := hr.head.trans hh
  obtain ⟨r, hfind, ⟨-, hall⟩ | ⟨l₁, t, l₂, hsplit, rfl, hbefore, ht⟩⟩ :=
    findTarget_found hnew.slotted (hr.slotted n) hh
  · exact absurd (hall o ho) hno.asymm
  · have htm : t ∈ l := by rw [hsplit]; simp
    have hnt : Ahead side (b.levelPrice n) (b.levelPrice t) := ahead_of_not hside (hnew.price t htm) ht
    obtain ⟨a, ham, hprev⟩ : ∃ a ∈ l, b.prevEntry t = some a := by
      have hlinks := hr.links
      rw [hsplit] at hlinks ⊢
      obtain ⟨a, ha⟩ : ∃ a, (t :: (l₂ ++ l₁)).getLast? = some a := ⟨_, List.getLast?_cons⟩
      refine ⟨a, ?_, hlinks.prev_of_split.trans ha⟩
      have hm := List.mem_of_getLast? ha
      simp only [List.mem_cons, List.mem_append] at hm ⊢
      tauto
    have htn : t ≠ n := ne_of_mem_of_not_mem htm hnew.fresh
    have han : a ≠ n := ne_of_mem_of_not_mem ham hnew.fresh
    have hn₁ : (b.slotted n).Block n := hnew.block
    have ht₁ : (b.slotted n).Block t := hr.blocks t htm
    have ha₁ : (b.slotted n).Block a := hr.blocks a ham
    have hprev₁ : (b.slotted n).prevEntry t = some a := hprev
    have hh₁ : (b.slotted n).Block h := hr.blocks h (by rw [hl]; exact List.mem_cons_self ..)
    have hadd : addOrdersAtPrice n b = insertBefore n (some h) (some t) (b.slotted n) := by
      rw [addOrdersAtPrice_of_block hnew.block, hnew.side, hbest, if_neg (by simp), bind_of_ok hfind]
      rfl
    cases l₁ with
    | nil =>
      -- the new level becomes the best one
      obtain rfl : t = h := by
        rw [hsplit] at hh
        exact Option.some.inj hh
      have hsell : side = .SELL := by
        refine hside.resolve_left fun hbuy => ?_
        obtain ⟨c, hc, hcn⟩ := hbids hbuy
        rw [hsplit] at hc
        rcases List.mem_cons.mp hc with rfl | hc
        · exact hnt.asymm hcn
        · have hsorted := hr.sorted
          rw [hsplit] at hsorted
          exact hnt.asymm (trans_of (Ahead side) ((List.pairwise_cons.mp hsorted).1 c hc) hcn)
      have hnbuy : (b.slotted n).levelSide n ≠ .BUY := by
        rw [show (b.slotted n).levelSide n = side from hnew.side, hsell]
        exact Side.sell_ne_buy
      have hself : ((b.slotted n).inserted n a t).nextEntry t ≠ some t := by
        rw [hsplit] at hr hnew
        exact next_inserted_ne_self (b := b.slotted n) hr.links hr.nodup hnew.fresh hprev
      have hfirst : insertBefore n (some t) (some t) (b.slotted n) =
          .ok () { (b.slotted n).promoted n a t with asksAtPrice := some n } := by
        have hahead : Ahead ((b.slotted n).levelSide n) ((b.slotted n).levelPrice n) ((b.slotted n).levelPrice t) := by
          rw [show (b.slotted n).levelSide n = side from hnew.side]
          exact hnt
        rw [insertBefore_first hn₁ ht₁ ha₁ htn hprev₁ hahead, if_neg hnbuy]
      have hnext := fun q => (next_promoted hself q).trans (next_inserted han q)
      have hprev' := fun q => (prev_promoted q).trans (prev_inserted (b := b.slotted n) (a := a) htn q)
      refine inserts_of_links hr hnew hsplit hbefore hnt (hadd.trans hfirst) ?_ (fun e => ?_) hprev hnext hprev'
      · rw [hsell]
        rfl
      · rw [hsell] at e
        cases e
    | cons k l₁ =>
      obtain rfl : k = h := by
        rw [hsplit] at hh
        exact Option.some.inj hh
      have hbest' : ¬ Ahead ((b.slotted n).levelSide n) ((b.slotted n).levelPrice n) ((b.slotted n).levelPrice k) := by
        rw [show (b.slotted n).levelSide n = side from hnew.side]
        exact (hbefore k (List.mem_cons_self ..)).asymm
      have hinner := insertBefore_of_blocks hn₁ ht₁ ha₁ hh₁ htn hprev₁
      rw [if_neg hbest', pure_apply] at hinner
      exact inserts_of_links hr hnew hsplit hbefore hnt (hadd.trans hinner) hbest (fun _ => rfl) hprev (next_inserted han)
        (prev_inserted htn)

/-- Behind the last level the new one gets no forward link. -/
theorem not_inserts_last (hr : LevelRing b side l) (hnew : NewLevel b side l n) (hne : l ≠ []) (hall : Behind b side n l) :
    ¬ Inserts b side l n := by
  rintro ⟨b', l', he, hperm, hr', -, -, -⟩
  obtain ⟨h, m, hl⟩ := List.exists_cons_of_ne_nil hne
  have hh : l.head? = some h := by rw [hl]; rfl
  have hbest : b.bestOf side = some h := hr.head.trans hh
  obtain ⟨r, hfind, hfound⟩ := findTarget_found hnew.slotted (hr.slotted n) hh
  obtain rfl : r = (true, some h) := by
    rcases hfound with ⟨rfl, -⟩ | ⟨l₁, t, l₂, hsplit, -, -, ht⟩
    · rfl
    · exact absurd (hall t (by rw [hsplit]; simp)) ht
  obtain ⟨t, ht⟩ : ∃ t, l.getLast? = some t := by
    rw [hl]
    exact ⟨_, List.getLast?_cons⟩
  have htn : t ≠ n := ne_of_mem_of_not_mem (List.mem_of_getLast? ht) hnew.fresh
  rw [addOrdersAtPrice_of_block hnew.block, hnew.side, hbest, if_neg (by simp), bind_of_ok hfind] at he
  have hafter : insertAfter n (some h) (some h) (b.slotted n) = .ok () b' := he
  have hlast : (b.ordersAtPricePool.get h).prevEntry = some t := hr.links.back h hh t ht
  have hblock : (b.slotted n).Block h := hr.blocks h (by rw [hl]; exact List.mem_cons_self ..)
  rw [insertAfter, if_pos rfl, bind_of_ok (level_of_block hblock),
    show ((b.slotted n).ordersAtPricePool.get h).prevEntry = some t from hlast] at hafter
  obtain ⟨c, -, -, hnext, -⟩ := linkAfter_ok htn hafter
  have hnone : b'.nextEntry n = none := by
    rw [hnext, if_neg htn.symm]
    exact hnew.next
  obtain ⟨l₁, l₂, hsplit⟩ := List.append_of_mem (hperm.mem_iff.mpr (List.mem_cons_self ..))
  rw [hsplit] at hr'
  rw [hr'.next_eq] at hnone
  simp at hnone

/-- A bid that is better than all others does not become the best one. -/
theorem not_inserts_best (hr : LevelRing b .BUY l) (hnew : NewLevel b .BUY l n)
    (hbest : ∀ ℓ ∈ l, ¬ Ahead .BUY (b.levelPrice ℓ) (b.levelPrice n)) : ¬ Inserts b .BUY l n := by
  rintro ⟨b', l', he, hperm, hr', hprice, -, -⟩
  obtain ⟨-, -, -, hbids⟩ := addOrdersAtPrice_frame he
  have hhead : l'.head? = l.head? := by
    rw [← hr'.head, ← hr.head]
    exact hbids
  have hmem : n ∈ l' := hperm.mem_iff.mpr (List.mem_cons_self ..)
  obtain ⟨h, m, rfl⟩ := List.exists_cons_of_ne_nil (List.ne_nil_of_mem hmem)
  have hhl : h ∈ l := List.mem_of_mem_head? hhead.symm
  have hhn : n ≠ h := (ne_of_mem_of_not_mem hhl hnew.fresh).symm
  have hsorted := (List.pairwise_cons.mp hr'.sorted).1 n ((List.mem_cons.mp hmem).resolve_left hhn)
  rw [hprice, hprice] at hsorted
  exact hbest h hhl hsorted

/-- A new level is inserted as it should be exactly if a level to sell is the first of its side or
cheaper than some other one, and a level to buy lies between two others. -/
theorem addOrdersAtPrice_sorted_iff (hside : side = .BUY ∨ side = .SELL) (hr : LevelRing b side l) (hnew : NewLevel b side l n) :
    Inserts b side l n ↔
      (side = .SELL ∧ (l = [] ∨ ∃ ℓ ∈ l, b.levelPrice n < b.levelPrice ℓ)) ∨
      (side = .BUY ∧ (∃ ℓ ∈ l, b.levelPrice n < b.levelPrice ℓ) ∧ ∃ ℓ ∈ l, b.levelPrice ℓ < b.levelPrice n) := by
  have hlast : Inserts b side l n → l = [] ∨ ∃ ℓ ∈ l, Ahead side (b.levelPrice n) (b.levelPrice ℓ) := by
    intro h
    by_contra hno
    rw [not_or, not_exists] at hno
    refine not_inserts_last hr hnew hno.1 (fun ℓ hℓ => ?_) h
    exact ahead_of_not hside (hnew.price ℓ hℓ).symm fun e => hno.2 ℓ ⟨hℓ, e⟩
  rcases hside with rfl | rfl
  · simp only [ahead_buy] at hlast
    have hbest : Inserts b .BUY l n → ∃ ℓ ∈ l, b.levelPrice n < b.levelPrice ℓ := by
      intro h
      by_contra hno
      rw [not_exists] at hno
      exact not_inserts_best hr hnew (fun ℓ hℓ e => hno ℓ ⟨hℓ, ahead_buy.mp e⟩) h
    constructor
    · intro h
      obtain ⟨ℓ, hℓ, hlt⟩ := hbest h
      exact .inr ⟨rfl, ⟨ℓ, hℓ, hlt⟩, (hlast h).resolve_left (List.ne_nil_of_mem hℓ)⟩
    · rintro (⟨e, -⟩ | ⟨-, ⟨ℓ, hℓ, hlt⟩, ℓ', hℓ', hlt'⟩)
      · cases e
      · exact inserts_inner (.inl rfl) hr hnew ⟨ℓ', hℓ', ahead_buy.mpr hlt'⟩ fun _ => ⟨ℓ, hℓ, ahead_buy.mpr hlt⟩
  · simp only [ahead_sell] at hlast
    constructor
    · intro h
      exact .inl ⟨rfl, hlast h⟩
    · rintro (⟨-, rfl | ⟨ℓ, hℓ, hlt⟩⟩ | ⟨e, -⟩)
      · exact inserts_first hr hnew
      · exact inserts_inner (.inr rfl) hr hnew ⟨ℓ, hℓ, ahead_sell.mpr hlt⟩ nofun
      · cases e

/-- A book with one level to sell, at 100, and a second one that is about to be inserted. -/
def secondAsk (price : Price) : MEOrderBook :=
  { ordersAtPricePool :=
      ((MemPool.ofSize ME_MAX_PRICE_LEVELS).take 0 { side := .SELL, price := 100, prevEntry := some 0, nextEntry := some 0 } 1).take 1
        { side := .SELL, price } 2
    asksAtPrice := some 0 }

theorem secondAsk_ring (price : Price) : LevelRing (secondAsk price) .SELL [0] where
  head := rfl
  links := Ring.singleton_iff.mpr ⟨rfl, rfl⟩
  nodup := List.nodup_singleton 0
  sorted := List.pairwise_singleton _ 0
  sides := List.forall_mem_singleton.mpr rfl
  blocks := List.forall_mem_singleton.mpr ⟨by decide, nofun⟩

theorem secondAsk_new {price : Price} (h : price ≠ 100) : NewLevel (secondAsk price) .SELL [0] 1 where
  fresh := by decide
  side := rfl
  price := List.forall_mem_singleton.mpr h.symm
  next := rfl
  prev := rfl
  block := ⟨by decide, nofun⟩

theorem addOrdersAtPrice_sorted_cheaper : Inserts (secondAsk 99) .SELL [0] 1 :=
  (addOrdersAtPrice_sorted_iff (.inr rfl) (secondAsk_ring 99) (secondAsk_new (by decide))).mpr
    (.inl ⟨rfl, .inr ⟨0, by decide, by decide⟩⟩)

/-- A dearer second level to sell leaves the ring open, and the first level to buy is not found. -/
theorem insertion_fails : (LevelRing (secondAsk 101) .SELL [0] ∧ NewLevel (secondAsk 101) .SELL [0] 1 ∧
      ¬ Inserts (secondAsk 101) .SELL [0] 1) ∧
    ∃ b, LevelRing b .BUY [] ∧ NewLevel b .BUY [] 0 ∧ ¬ Inserts b .BUY [] 0 := by
  have hring := secondAsk_ring 101
  have hnew : NewLevel (secondAsk 101) .SELL [0] 1 := secondAsk_new (by decide)
  refine ⟨⟨hring, hnew, not_inserts_last hring hnew (by decide) (by decide)⟩, ?_⟩
  obtain ⟨b, hb⟩ : ∃ b : MEOrderBook, b =
    { ordersAtPricePool := (MemPool.ofSize ME_MAX_PRICE_LEVELS).take 0 { side := .BUY, price := 100 } 1 } := ⟨_, rfl⟩
  have hring : LevelRing b .BUY [] := ⟨by rw [hb]; rfl, .nil, .nil, .nil, nofun, nofun⟩
  have hnew : NewLevel b .BUY [] 0 := by
    rw [hb]
    exact ⟨by decide, rfl, nofun, rfl, rfl, by decide, nofun⟩
  exact ⟨b, hring, hnew, not_inserts_best hring hnew nofun⟩

end TradingEcosystem.MEOrderBook
