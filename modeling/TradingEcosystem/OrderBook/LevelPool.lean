import TradingEcosystem.MemPool.Exclusive
import TradingEcosystem.OrderBook.Faults

/-! The pool of price levels of a book in use: as many blocks are in use as slots of the hash map
are taken, and the pool gives out all of its blocks but the last one. -/
namespace TradingEcosystem.MEOrderBook
open Program Runs MemPool
variable {b b' : MEOrderBook} {ring : Slot → List OrderPtr} {x : Incoming} {leaves qty : Qty} {p : OrderPtr}

/-- The level pool has one block for each slot and its cursor is on a free one. -/
abbrev LevelPool (b : MEOrderBook) : Prop := Ready ME_MAX_PRICE_LEVELS b.ordersAtPricePool

/-- What the level pool is allocated by: its size, its cursor and which blocks are in use. -/
def levelFlags (b : MEOrderBook) :=
  (b.ordersAtPricePool.size, b.ordersAtPricePool.nextFreeIndex, b.ordersAtPricePool.Live)

theorem LevelPool.congr (h : b.LevelPool) (he : levelFlags b' = levelFlags b) : b'.LevelPool := by
  simp only [levelFlags, Prod.mk.injEq] at he
  obtain ⟨hsize, hcursor, hlive⟩ := he
  refine ⟨by rw [hsize]; exact h.size, by rw [hsize, hcursor]; exact h.cursor, ?_⟩
  rw [hcursor, hlive]
  exact h.free

/-- The calls after which the level pool can still be allocated from. -/
abbrev KeepsPool {α : Type} (y : BookM α) : Prop := Frame (Preserves LevelPool) y

theorem keepsPool_of_fixes {α : Type} {y : BookM α} (h : Frame (Fixes levelFlags) y) : KeepsPool y :=
  h.mono fun _ _ e hp => LevelPool.congr hp e

theorem keepsPool_of_relinks {α : Type} {y : BookM α} (h : Relinks y) : KeepsPool y :=
  keepsPool_of_fixes (h.mono fun _ _ e => e.view levelFlags fun _ => rfl)

theorem keepsPool_setOrder (f : MEOrder → MEOrder) (q : Option OrderPtr) : KeepsPool (setOrder f q) :=
  frame_setOrder (fun _ _ h => h) q

theorem keepsPool_setLevel (f : MEOrdersAtPrice → MEOrdersAtPrice) (q : Option LevelPtr) : KeepsPool (setLevel f q) :=
  keepsPool_of_fixes <| frame_setLevel (fun b p => by
    simp only [Fixes, levelFlags, writeLevel_ordersAtPricePool, size_write, nextFreeIndex_write, Prod.mk.injEq, true_and]
    exact funext fun q => propext (live_write ..)) q

theorem keepsPool_setCidOidToOrder (c : ClientId) (k : OrderId) (q : Option OrderPtr) :
    KeepsPool (setCidOidToOrder c k q) := .ite (fun _ h => h) (.throw _)

theorem keepsPool_allocateOrder (o : MEOrder) : KeepsPool (allocateOrder o) := by
  intro b h
  unfold allocateOrder
  split <;> exact h

theorem keepsPool_deallocateOrder (q : Option OrderPtr) : KeepsPool (deallocateOrder q) := by
  intro b h
  unfold deallocateOrder
  split
  · exact h
  · split <;> exact h

theorem keepsPool_allocateLevel (l : MEOrdersAtPrice) : KeepsPool (allocateLevel l) := by
  intro b h
  unfold allocateLevel
  rcases allocate_cases l h with ⟨next, hnext, hne, hfree, halloc⟩ | ⟨-, halloc⟩ <;> simp only [halloc, final]
  · exact h.take hnext hne hfree
  · exact h

theorem keepsPool_deallocateLevel (q : Option LevelPtr) : KeepsPool (deallocateLevel q) := by
  intro b h
  unfold deallocateLevel
  split
  · exact h
  · split
    · rename_i hd
      obtain ⟨-, -, rfl⟩ := deallocate_eq_ok_iff.mp hd
      exact h.release _
    · exact h

theorem keepsPool_removeOrder (q : Option OrderPtr) : KeepsPool (removeOrder q) := by
  refine .bind (frame_order _) fun o => .bind (fun _ h => h) fun slot => .bind (.ite ?_ ?_) fun _ => ?_
  · refine .bind (fun _ h => h) fun best => .bind (fun _ h => h) fun slot => ?_
    refine .bind (keepsPool_of_relinks (relinks_unlinkLevel _ _ _)) fun _ => ?_
    exact .bind (fun _ h => h) fun _ => keepsPool_deallocateLevel _
  · refine .bind (keepsPool_setOrder _ _) fun _ => .bind (keepsPool_setOrder _ _) fun _ => .bind (frame_level _) fun l => ?_
    exact .ite (.bind (keepsPool_setLevel _ _) fun _ => keepsPool_setOrder _ _) (keepsPool_setOrder _ _)
  · exact .bind (keepsPool_setCidOidToOrder _ _ _) fun _ => keepsPool_deallocateOrder _

theorem keepsPool_addOrder (p : OrderPtr) : KeepsPool (addOrder p) := by
  refine .bind (frame_order _) fun o => .bind (fun _ h => h) fun slot => .bind (.ite ?_ ?_) fun _ => ?_
  · refine .bind (keepsPool_setOrder _ _) fun _ => .bind (keepsPool_allocateLevel _) fun n => ?_
    refine .bind (frame_level _) fun l => .bind (fun _ h => h) fun _ => keepsPool_of_relinks ?_
    refine .bind (relinks_bestOrdersByPrice _) fun best => .ite ?_ ?_
    · exact .bind (relinks_assignBestOrdersByPrice _ _) fun _ => relinks_setLevel _ fun _ => rfl
    · exact .bind (relinks_findTarget _ _) fun r => .ite (relinks_insertAfter _ _ _) (relinks_insertBefore _ _ _)
  · refine .bind (frame_level _) fun l => .bind (frame_order _) fun o => .bind (keepsPool_setOrder _ _) fun _ => ?_
    refine .bind (frame_order _) fun o => .bind (keepsPool_setOrder _ _) fun _ => ?_
    exact .bind (keepsPool_setOrder _ _) fun _ => keepsPool_setOrder _ _
  · exact keepsPool_setCidOidToOrder _ _ _

theorem keepsPool_trade (x : Incoming) (itr : Option OrderPtr) (leaves : Qty) : KeepsPool (x.trade itr leaves) := by
  refine .bind (frame_order _) fun o => .bind (keepsPool_setOrder _ _) fun _ => .bind (frame_order _) fun o => ?_
  refine .bind (fun _ h => h) fun _ => .bind (fun _ h => h) fun _ => ?_
  refine .bind (fun _ h => h) fun _ => .bind (.ite ?_ fun _ h => h) fun _ => .pure _
  exact .bind (fun _ h => h) fun _ => keepsPool_removeOrder _

theorem keepsPool_matchLoop (x : Incoming) (best : MEOrderBook → Option LevelPtr) (stop : Price → Bool) (fuel : Nat)
    (leaves : Qty) : KeepsPool (matchLoop best stop x.trade fuel leaves) := by
  induction fuel generalizing leaves with
  | zero => exact .throw _
  | succ fuel ih =>
    refine .bind (fun _ h => h) fun b => .ite (.pure _) (.bind (frame_level _) fun l => ?_)
    exact .bind (frame_order _) fun o => .ite (.pure _) (.bind (keepsPool_trade x _ _) fun leaves => ih leaves)

theorem keepsPool_matching (x : Incoming) (qty : Qty) : KeepsPool (x.matching qty) := by
  rw [matching_eq]
  refine .bind (.ite (keepsPool_matchLoop x _ _ _ _) (.pure _)) fun leaves => ?_
  exact .ite (keepsPool_matchLoop x _ _ _ _) (.pure _)

theorem keepsPool_rest (x : Incoming) (leaves : Qty) : KeepsPool (x.rest leaves) := by
  refine .bind ?_ fun _ => .bind (keepsPool_allocateOrder _) fun p => .bind (keepsPool_addOrder p) fun _ => ?_
  · refine .bind (fun _ h => h) fun slot => .ite (.pure _) (.bind (frame_level _) fun l => ?_)
    exact .bind (frame_order _) fun o => .bind (frame_order _) fun o => .pure _
  · exact fun _ h => h

theorem keepsPool_call (r : Request) : KeepsPool (call r) := by
  cases r with
  | add clientId clientOrderId tickerId side price qty =>
    intro b h
    rw [call, add_apply rfl]
    refine Frame.bind (R := Preserves LevelPool) (keepsPool_matching _ _) (fun leaves => ?_) _ h
    exact .ite (keepsPool_rest _ _) (.pure _)
  | cancel clientId orderId tickerId =>
    refine .bind (.ite (.ite (.bind (fun _ h => h) fun _ => .pure _) (.throw _)) (.pure _)) fun q => ?_
    refine .ite (fun _ h => h) (.bind (frame_order _) fun o => ?_)
    refine .bind (keepsPool_removeOrder _) fun _ => .bind (fun _ h => h) fun _ => ?_
    exact fun _ h => h

theorem levelPool_run {guard : MEOrderBook → Request → Prop} {strict : Bool} {rs : List Request}
    (h : Reaches call guard (fresh strict) rs b) : b.LevelPool := by
  refine h.invariant (I := fun _ b => b.LevelPool) ⟨rfl, Nat.two_pow_pos 8, by simp [fresh, ofSize, Live]⟩ fun _ b r b' hb _ hr => ?_
  exact (keepsPool_call r).of_ok hr hb

/-! ## The blocks and the slots -/

theorem Removed.inUse (h : Removed b b' p) : b'.orderPool.inUse = b.orderPool.inUse.erase p := by
  ext q
  rw [mem_inUse, Finset.mem_erase, mem_inUse, h.size, h.live_iff]
  tauto

theorem inUse_filled : (b.filled x p leaves).orderPool.inUse = b.orderPool.inUse := by
  ext q
  rw [mem_inUse, mem_inUse, filled_size, live_filled]

/-- The slots of the hash map that hold a level. -/
def occupied (b : MEOrderBook) : Finset Slot := Finset.univ.filter fun s => b.priceOrdersAtPriceHashMap s ≠ none

/-- Each level in use is in its own slot of the hash map, and there is no other entry in it. -/
theorem HeapInv.card_inUse (hb : HeapInv b ring) : b.ordersAtPricePool.inUse.card = b.occupied.card := by
  refine Finset.card_nbij' (fun ℓ => priceToIndex (b.ordersAtPricePool.get ℓ).price)
    (fun s => (b.priceOrdersAtPriceHashMap s).getD 0) (fun ℓ hℓ => ?_) (fun s hs => ?_) (fun ℓ hℓ => ?_) (fun s hs => ?_)
  · have hlive := (mem_inUse.mp hℓ).2
    simp [occupied, hb.home ℓ hlive]
  · obtain ⟨ℓ, hℓ⟩ := Option.ne_none_iff_exists'.mp (Finset.mem_filter.mp hs).2
    have hlive := (hb.level s ℓ hℓ).1
    simp only [hℓ, Option.getD_some]
    exact mem_inUse.mpr ⟨hb.levelBound ℓ hlive, hlive⟩
  · have hlive := (mem_inUse.mp hℓ).2
    simp [hb.home ℓ hlive]
  · obtain ⟨ℓ, hℓ⟩ := Option.ne_none_iff_exists'.mp (Finset.mem_filter.mp hs).2
    simp only [hℓ, Option.getD_some]
    exact (hb.level s ℓ hℓ).2.2

theorem allocateLevel_stops_iff (h : b.LevelPool) (l : MEOrdersAtPrice) :
    (∃ b', allocateLevel l b = .error outOfSpace b') ↔ b.ordersAtPricePool.inUse.card + 1 = ME_MAX_PRICE_LEVELS := by
  refine Iff.trans ?_ (allocate_stops_iff l h)
  unfold allocateLevel
  rcases allocate_cases l h with ⟨next, -, -, -, halloc⟩ | ⟨-, halloc⟩ <;> rw [halloc]
  · exact ⟨fun ⟨_, e⟩ => (nomatch e), fun ⟨_, e⟩ => (nomatch e)⟩
  · exact ⟨fun _ => ⟨_, rfl⟩, fun _ => ⟨_, rfl⟩⟩

theorem raises_sendMarketUpdate {E : Fault → Prop} (about : Option Nat) (u : MEMarketUpdate) :
    Raises E (sendMarketUpdate about u) := .of_returns fun _ => ⟨_, _, rfl⟩

theorem addOrdersAtPrice_ne_outOfSpace (n : LevelPtr) : Raises (· ≠ outOfSpace) (addOrdersAtPrice n) :=
  (raises_addOrdersAtPrice n).mono fun e he hs => by
    rw [hs] at he
    exact he

theorem setCidOidToOrder_ne_outOfSpace (c : ClientId) (k : OrderId) (q : Option OrderPtr) :
    Raises (· ≠ outOfSpace) (setCidOidToOrder c k q) :=
  .ite (.of_returns fun _ => ⟨_, _, rfl⟩) (.throw nofun)

theorem linkOrder_stops_iff (h : b.LevelPool) (hp : b.orderPool.Live p) (o : MEOrder) :
    (∃ b', linkOrder p o none b = .error outOfSpace b') ↔ b.ordersAtPricePool.inUse.card + 1 = ME_MAX_PRICE_LEVELS := by
  rw [linkOrder, if_pos rfl, bind_of_ok (setOrder_of_live hp), Raises.stops_bind_iff addOrdersAtPrice_ne_outOfSpace]
  exact allocateLevel_stops_iff (b := b.writeOrder p _) h _

/-- An order that opens a level, and has got its own block, finds the level pool out of space
exactly if all slots but one hold a level. -/
theorem rest_stops_iff (h : b.LevelPool) (hb : HeapInv b ring) {o : MEOrder}
    (hslot : b.priceOrdersAtPriceHashMap (priceToIndex x.price) = none)
    (ho : o = b.remainder [] x.no x.clientId x.clientOrderId x.tickerId x.side x.price leaves x.id)
    (halloc : allocateOrder o b = .ok p b') :
    (∃ b₁, x.rest leaves b = .error outOfSpace b₁) ↔ b.occupied.card + 1 = ME_MAX_PRICE_LEVELS := by
  have hprio : getNextPriority x.price b = .ok 1 b := by
    rw [getNextPriority, bind_of_ok (getOrdersAtPrice_ok.mpr ⟨rfl, rfl⟩), if_pos hslot]
    rfl
  have halloc' := halloc
  rw [ho] at halloc'
  simp only [remainder, priorityAfter, List.getLast?_nil] at halloc'
  rw [Incoming.rest, MEOrderBook.rest, bind_of_ok hprio, bind_of_ok halloc', Raises.stops_bind_iff fun _ => raises_sendMarketUpdate _ _]
  obtain ⟨-, -, next, -, rfl⟩ := allocateOrder_ok halloc
  have hlive : (b.taken p o next).orderPool.Live p := (live_take ..).mpr (.inl rfl)
  have hget : (b.taken p o next).orderPool.get p = o := by rw [taken, get_take, if_pos rfl]
  have hslot' : none = (b.taken p o next).priceOrdersAtPriceHashMap (priceToIndex o.price) := by
    rw [ho]
    exact hslot.symm
  rw [addOrder, bind_of_ok (order_of_live hlive), hget, bind_of_ok (getOrdersAtPrice_ok.mpr ⟨hslot', rfl⟩),
    Raises.stops_bind_iff fun _ => setCidOidToOrder_ne_outOfSpace _ _ _, linkOrder_stops_iff (b := b.taken p o next) h hlive, ← hb.card_inUse]
  rfl

/-! ## Runs -/

/-- A matched order that opens a level: its slot holds none and the order pool has a block for it. -/
structure Opens (x : Incoming) (leaves : Qty) (b : MEOrderBook) : Prop where
  unfilled : leaves ≠ 0
  slot : b.priceOrdersAtPriceHashMap (priceToIndex x.price) = none
  block : ∃ p b', allocateOrder (b.remainder [] x.no x.clientId x.clientOrderId x.tickerId x.side x.price leaves x.id) b =
    .ok p b'

/-- In every run of a pool of `n` elements the calls that fail are the allocations made while
`n - 1` elements are in use. In every run of a book, so, an order that opens a level finds the
level pool out of space exactly if all slots but one hold a level. -/
theorem run_outOfSpace_iff (strict : Bool) :
    (∀ (T : Type) [Inhabited T] (n : Nat) (is : List (Step T)) (s : Used T) (i : Step T), 0 < n →
      Reaches step GivesHeld (start n) is s → GivesHeld s i →
      ((∃ f s', step i s = .error f s') ↔ (∃ object, i = .allocate object) ∧ s.held.length + 1 = n)) ∧
    ∀ (rs : List Request) (b b₁ : MEOrderBook) (clientId : ClientId) (clientOrderId : OrderId)
      (tickerId : TickerId) (side : Side) (price : Price) (qty leaves : Qty) (x : Incoming),
      Reaches call (fun _ _ => True) (fresh strict) rs b →
      x = b.incoming clientId clientOrderId tickerId side price → x.matching qty (b.accepted x qty) = .ok leaves b₁ →
      Opens x leaves b₁ →
      ((∃ b', call (.add clientId clientOrderId tickerId side price qty) b = .error outOfSpace b') ↔
        b₁.occupied.card + 1 = ME_MAX_PRICE_LEVELS) := by
  constructor
  · intro T _ n is s i hn h hg
    exact exclusive_stops hn h hg
  · intro rs b b₁ clientId clientOrderId tickerId side price qty leaves x h hx hm ho
    obtain ⟨⟨ring, hb⟩, hbids⟩ := run_heap h
    have hK : KeepsTurns fun _ _ _ => True := ⟨fun _ _ _ _ _ => trivial, fun _ _ _ _ _ _ _ _ => trivial⟩
    obtain ⟨⟨ring₁, hb₁, -⟩, -⟩ := hK.matching (heap_accepted hb x qty) hbids trivial hm
    have hpool : b₁.LevelPool := (keepsPool_matching x qty).of_ok hm (levelPool_run h : b.LevelPool)
    obtain ⟨p, b₂, halloc⟩ := ho.block
    rw [call, add_apply hx, bind_of_ok hm, if_pos ho.unfilled]
    exact rest_stops_iff hpool hb₁ ho.slot rfl halloc

/-- The second allocation in a pool of two fails, and the first level of a book does not. -/
theorem run_outOfSpace_two :
    (∃ s : Used Nat, Reaches step GivesHeld (start 2) [.allocate 7] s ∧ ∃ f s', step (.allocate 8) s = .error f s') ∧
    ¬ ∃ b', call (.add 1 2 0 .SELL 100 10) (fresh true) = .error outOfSpace b' := by
  constructor
  · obtain ⟨s, hrun, hheld⟩ : ∃ s : Used Nat, Reaches step GivesHeld (start 2) [.allocate 7] s ∧ s.held.length + 1 = 2 :=
      exists_of_guarded (P := fun s : Used Nat => s.held.length + 1 = 2) (by decide +kernel)
    exact ⟨s, hrun, ((run_outOfSpace_iff true).1 Nat 2 _ s (.allocate 8) (by decide) hrun trivial).mpr ⟨⟨8, rfl⟩, hheld⟩⟩
  · obtain ⟨x, hx⟩ : ∃ x, x = (fresh true).incoming 1 2 0 .SELL 100 := ⟨_, rfl⟩
    have hm : x.matching 10 ((fresh true).accepted x 10) = .ok 10 ((fresh true).accepted x 10) :=
      matching_idle rfl (.inl (by rw [hx]; exact Side.buy_ne_sell.symm))
    have hblock : ∀ o, ∃ p b', allocateOrder o ((fresh true).accepted x 10) = .ok p b' := fun o => by
      unfold allocateOrder
      rw [allocate_of_free o (by simp [fresh, ofSize, Live]) (by simp [fresh, ofSize, Live])
        (Nat.one_lt_two_pow (n := 20) (by decide))]
      exact ⟨_, _, rfl⟩
    rw [(run_outOfSpace_iff true).2 [] (fresh true) _ 1 2 0 .SELL 100 10 10 x .start hx hm ⟨by decide, rfl, hblock _⟩]
    have hnone : ((fresh true).accepted x 10).occupied = ∅ := by simp [occupied, fresh]
    rw [hnone]
    decide

/-- A pool of one element fails at its first allocation, with no element in use before it. -/
theorem singlePool_outOfSpace : GivesHeld (start 1 : Used Nat) (.allocate 7) ∧ (start 1 : Used Nat).held.length + 1 ≤ 1 ∧
    step (.allocate 7) (start 1 : Used Nat) = .error outOfSpace (start 1) :=
  ⟨trivial, by decide, rfl⟩

end TradingEcosystem.MEOrderBook
