import TradingEcosystem.OrderBook.Heap

/-! `removeOrder` and `removeOrdersAtPrice` on a book whose heap is in order: an order
leaves its ring, its level goes with the last one, and nothing else changes. -/
namespace TradingEcosystem.MEOrderBook
open Program LinkedRing
variable {b b' : MEOrderBook} {ring : Slot → List OrderPtr} {s : Slot} {p : OrderPtr} {ℓ ℓ' : LevelPtr} {u : Unit}

theorem removeOrdersAtPrice_ok {side : Side} {price : Price} :
    removeOrdersAtPrice side price b = .ok u b' ↔ ∃ ℓ b₁,
      b.priceOrdersAtPriceHashMap (priceToIndex price) = some ℓ ∧
      unlinkLevel side (if side = .BUY then b.bidsAtPrice else b.asksAtPrice) (some ℓ) b = .ok () b₁ ∧
      ℓ < b.ordersAtPricePool.size ∧ b.ordersAtPricePool.Live ℓ ∧
      b' = { b₁ with
        priceOrdersAtPriceHashMap := Function.update b.priceOrdersAtPriceHashMap (priceToIndex price) none
        ordersAtPricePool := b₁.ordersAtPricePool.release ℓ } := by
  simp only [removeOrdersAtPrice, bind_eq_ok, bestOrdersByPrice_ok, getOrdersAtPrice_ok, setOrdersAtPrice_ok,
    deallocateLevel_ok]
  constructor
  · rintro ⟨best, _, ⟨rfl, rfl⟩, slot, _, ⟨hslot, rfl⟩, _, b₁, hu, _, _, rfl, ℓ, rfl, hsize, hlive, rfl⟩
    have hr := (relinks_unlinkLevel _ _ _).of_ok hu
    refine ⟨ℓ, b₁, hslot.symm, hu, hr.levelSize ▸ hsize, (hr.levelLive ℓ).mp hlive, ?_⟩
    rw [hr.slots]
  · rintro ⟨ℓ, b₁, hslot, hu, hsize, hlive, rfl⟩
    have hr := (relinks_unlinkLevel _ _ _).of_ok hu
    refine ⟨_, b, ⟨rfl, rfl⟩, some ℓ, b, ⟨hslot.symm, rfl⟩, (), b₁, hu, (), _, rfl, ℓ, rfl,
      hr.levelSize ▸ hsize, (hr.levelLive ℓ).mpr hlive, ?_⟩
    rw [hr.slots]

/-- The book after order `p` left the middle of its ring, between `a` and `c`. -/
def unlinked (b : MEOrderBook) (p a c : OrderPtr) (ℓ : LevelPtr) : MEOrderBook :=
  let b₁ := (b.writeOrder a fun x => { x with nextOrder := some c }).writeOrder c
    fun x => { x with prevOrder := some a }
  let b₂ := if (b.ordersAtPricePool.get ℓ).firstMeOrder = some p
    then b₁.writeLevel ℓ fun l => { l with firstMeOrder := some c } else b₁
  b₂.writeOrder p fun x => { x with prevOrder := none, nextOrder := none }

/-- The book after the last two statements of `removeOrder`. -/
def dropped (b : MEOrderBook) (p : OrderPtr) (o : MEOrder) : MEOrderBook :=
  { b with
    cidOidToOrder := fun c k => if c = o.clientId ∧ k = o.clientOrderId then none else b.cidOidToOrder c k
    orderPool := b.orderPool.release p }

@[simp] theorem dropped_ordersAtPricePool {o : MEOrder} : (dropped b p o).ordersAtPricePool = b.ordersAtPricePool := rfl

@[simp] theorem live_dropped {o : MEOrder} (q : OrderPtr) :
    (dropped b p o).orderPool.Live q ↔ q ≠ p ∧ b.orderPool.Live q := MemPool.live_release ..

@[simp] theorem content_dropped {o : MEOrder} (q : OrderPtr) : (dropped b p o).content q = b.content q := by
  simp [content, dropped]

@[simp] theorem next_dropped {o : MEOrder} (q : OrderPtr) : (dropped b p o).nextOrder q = b.nextOrder q := by
  simp [nextOrder, dropped]

@[simp] theorem prev_dropped {o : MEOrder} (q : OrderPtr) : (dropped b p o).prevOrder q = b.prevOrder q := by
  simp [prevOrder, dropped]

theorem unlinkOrder_of_inner {o : MEOrder} {a c : OrderPtr} (hpa : o.prevOrder ≠ some p)
    (ha : o.prevOrder = some a) (hc : o.nextOrder = some c) (hlp : b.orderPool.Live p) (hla : b.orderPool.Live a)
    (hlc : b.orderPool.Live c) (hℓ : b.ordersAtPricePool.Live ℓ) :
    unlinkOrder (some p) o (some ℓ) b = .ok () (unlinked b p a c ℓ) := by
  unfold unlinkOrder unlinked
  rw [if_neg hpa, ha, hc, bind_of_ok (setOrder_of_live hla), bind_of_ok (setOrder_of_live (by simpa using hlc)),
    bind_of_ok (level_of_live (by simpa using hℓ))]
  dsimp only
  by_cases hf : (b.ordersAtPricePool.get ℓ).firstMeOrder = some p
  · rw [if_pos hf, if_pos (by simpa using hf), bind_of_ok (setLevel_of_live (by simpa using hℓ)),
      setOrder_of_live (by simpa using hlp)]
  · rw [if_neg hf, if_neg (by simpa using hf), setOrder_of_live (by simpa using hlp)]

/-- Links do not decide which blocks are in use. -/
theorem live_unlinkOrder (q : Option OrderPtr) (o : MEOrder) (slot : Option LevelPtr) :
    Frame (Fixes fun b => (b.orderPool.Live, b.orderPool.size)) (unlinkOrder q o slot) := by
  have hset : ∀ (f : MEOrder → MEOrder) (q : Option OrderPtr),
      Frame (Fixes fun b => (b.orderPool.Live, b.orderPool.size)) (setOrder f q) :=
    fun f => frame_setOrder fun b p => by simp [Fixes, funext_iff]
  have hrem : Frame (Fixes fun b => (b.orderPool.Live, b.orderPool.size)) (removeOrdersAtPrice o.side o.price) := by
    refine .bind (fun _ => rfl) fun best => .bind (fun _ => rfl) fun slot => .bind ?_ fun _ => ?_
    · exact (relinks_unlinkLevel _ _ _).mono fun b b' h => by simp only [Fixes, h.orderPool]
    · refine .bind (fun _ => rfl) fun _ b => ?_
      unfold deallocateLevel
      split
      · rfl
      · split <;> rfl
  refine .ite hrem (.bind (hset _ _) fun _ => .bind (hset _ _) fun _ => .bind (frame_level _) fun l => ?_)
  refine .ite (.bind (frame_setLevel (fun _ _ => rfl) _) fun _ => hset _ _) (hset _ _)

theorem removeOrder_ok : removeOrder (some p) b = .ok u b' ↔
    b.orderPool.Live p ∧ p < b.orderPool.size ∧
    ((b.orderPool.get p).clientId.toNat < ME_MAX_NUM_CLIENTS ∧
      (b.orderPool.get p).clientOrderId.toNat < ME_MAX_ORDER_IDS) ∧
    ∃ b₁, unlinkOrder (some p) (b.orderPool.get p) (b.priceOrdersAtPriceHashMap (b.slotOf p)) b = .ok () b₁ ∧
      b' = dropped b₁ p (b.orderPool.get p) := by
  simp only [removeOrder, bind_eq_ok, order_ok, getOrdersAtPrice_ok, setCidOidToOrder_ok, deallocateOrder_ok,
    Option.some.injEq, exists_eq_left']
  constructor
  · rintro ⟨o, _, ⟨_, rfl, rfl⟩, slot, _, ⟨rfl, rfl⟩, _, b₁, hu, _, _, ⟨hk, rfl⟩, hsize, hlive, rfl⟩
    have hf := (live_unlinkOrder _ _ _).of_ok hu
    simp only [Fixes, Prod.mk.injEq] at hf
    exact ⟨hf.1 ▸ hlive, hf.2 ▸ hsize, hk, b₁, hu, rfl⟩
  · rintro ⟨hlive, hsize, hk, b₁, hu, rfl⟩
    have hf := (live_unlinkOrder _ _ _).of_ok hu
    simp only [Fixes, Prod.mk.injEq] at hf
    exact ⟨_, b, ⟨fun _ => hlive, rfl, rfl⟩, _, b, ⟨rfl, rfl⟩, (), b₁, hu, (), _, ⟨hk, rfl⟩,
      hf.2 ▸ hsize, hf.1 ▸ hlive, rfl⟩

/-- What a removal changes, seen from the orders. -/
structure Removed (b b' : MEOrderBook) (p : OrderPtr) : Prop where
  live : b.orderPool.Live p
  live_iff : ∀ q, b'.orderPool.Live q ↔ q ≠ p ∧ b.orderPool.Live q
  content : ∀ q, b'.content q = b.content q
  index : ∀ c k, b'.cidOidToOrder c k =
    if c = (b.orderPool.get p).clientId ∧ k = (b.orderPool.get p).clientOrderId then none
    else b.cidOidToOrder c k
  journal : b'.journal = b.journal
  size : b'.orderPool.size = b.orderPool.size
  cursor : b'.orderPool.nextFreeIndex = b.orderPool.nextFreeIndex

/-- A removal keeps the heap in order if the ring it shortens is closed again and the
level leaves with its last order. -/
private theorem heap_of_removed (hb : HeapInv b ring) (hr : Removed b b' p) (hs : s = b.slotOf p)
    (hother : ∀ t ≠ s, b'.priceOrdersAtPriceHashMap t = b.priceOrdersAtPriceHashMap t)
    (hslot : ∀ ℓ, b'.priceOrdersAtPriceHashMap s = some ℓ ↔
      b.priceOrdersAtPriceHashMap s = some ℓ ∧ ring s ≠ [p])
    (hlive : ∀ ℓ, b'.ordersAtPricePool.Live ℓ ↔
      b.ordersAtPricePool.Live ℓ ∧ ¬ (b.priceOrdersAtPriceHashMap s = some ℓ ∧ ring s = [p]))
    (hprice : ∀ ℓ, (b'.ordersAtPricePool.get ℓ).price = (b.ordersAtPricePool.get ℓ).price)
    (hfirst : ∀ ℓ, b'.ordersAtPricePool.Live ℓ → (b'.ordersAtPricePool.get ℓ).firstMeOrder =
      if b.priceOrdersAtPriceHashMap s = some ℓ then ((ring s).erase p).head?
      else (b.ordersAtPricePool.get ℓ).firstMeOrder)
    (hsize : b'.ordersAtPricePool.size = b.ordersAtPricePool.size)
    (hcur : b'.ordersAtPricePool.nextFreeIndex = b.ordersAtPricePool.nextFreeIndex)
    (hlink : Ring False b'.nextOrder b'.prevOrder ((ring s).erase p))
    (hlinks : ∀ t ≠ s, ∀ q ∈ ring t, b'.nextOrder q = b.nextOrder q ∧ b'.prevOrder q = b.prevOrder q) :
    HeapInv b' (Function.update ring s ((ring s).erase p)) := by
  have hp : p ∈ ring s := hs ▸ hb.mem_slotOf hr.live
  have hdata : ∀ q, (b'.orderPool.get q).price = (b.orderPool.get q).price ∧
      (b'.orderPool.get q).clientId = (b.orderPool.get q).clientId ∧
      (b'.orderPool.get q).clientOrderId = (b.orderPool.get q).clientOrderId := fun q =>
    ⟨view_of_content _ (hr.content q), view_of_content _ (hr.content q), view_of_content _ (hr.content q)⟩
  refine ⟨fun t => ?_, fun t ℓ h => ?_, fun ℓ h => ?_, hb.links_update hlink hlinks, hb.nodup_update ((hb.nodup s).erase p),
    fun t q => ?_, fun c k q h => ?_, fun q h => ?_, fun q h => ?_, ?_, fun ℓ h => ?_, ?_⟩
  · by_cases ht : t = s
    · subst ht
      obtain ⟨ℓ, hℓ⟩ := hb.level_of_mem hp
      rw [Function.update_self, List.erase_eq_nil_iff]
      constructor
      · intro hn
        by_contra hc
        rw [(hslot ℓ).mpr ⟨hℓ, fun e => hc (.inr e)⟩] at hn
        cases hn
      · intro he
        rw [Option.eq_none_iff_forall_ne_some]
        intro ℓ' h'
        exact ((hslot ℓ').mp h').2 (he.resolve_left (List.ne_nil_of_mem hp))
    · rw [Function.update_of_ne ht, hother t ht]
      exact hb.empty t
  · by_cases ht : t = s
    · subst ht
      obtain ⟨hℓ, hne⟩ := (hslot ℓ).mp h
      obtain ⟨hl, -, hpr⟩ := hb.level t ℓ hℓ
      have hl' : b'.ordersAtPricePool.Live ℓ := (hlive ℓ).mpr ⟨hl, fun e => hne e.2⟩
      exact ⟨hl', by rw [hfirst ℓ hl', if_pos hℓ, Function.update_self], by rw [hprice, hpr]⟩
    · rw [hother t ht] at h
      obtain ⟨hl, hf, hpr⟩ := hb.level t ℓ h
      have hn : b.priceOrdersAtPriceHashMap s ≠ some ℓ := fun e => ht (hb.slot_inj h e)
      have hl' : b'.ordersAtPricePool.Live ℓ := (hlive ℓ).mpr ⟨hl, fun e => hn e.1⟩
      exact ⟨hl', by rw [hfirst ℓ hl', if_neg hn, Function.update_of_ne ht, hf], by rw [hprice, hpr]⟩
  · obtain ⟨hl, hne⟩ := (hlive ℓ).mp h
    have hh := hb.home ℓ hl
    rw [hprice]
    by_cases ht : priceToIndex (b.ordersAtPricePool.get ℓ).price = s
    · rw [ht] at hh ⊢
      exact (hslot ℓ).mpr ⟨hh, fun e => hne ⟨hh, e⟩⟩
    · rw [hother _ ht, hh]
  · rw [hr.live_iff, slotOf, (hdata q).1]
    have hm := hb.member t q
    by_cases ht : t = s
    · subst ht
      rw [Function.update_self, (hb.nodup t).mem_erase_iff, hm, and_assoc]
    · rw [Function.update_of_ne ht, hm]
      refine ⟨fun h => ⟨⟨fun e => ht ?_, h.1⟩, h.2⟩, fun h => ⟨h.1.2, h.2⟩⟩
      rw [← h.2, e, hs]
  · rw [hr.index] at h
    split at h
    · cases h
    · rename_i hck
      obtain ⟨hl, hc, hk⟩ := hb.indexed c k q h
      rw [hr.live_iff, (hdata q).2.1, (hdata q).2.2]
      exact ⟨⟨fun e => hck (e ▸ ⟨hc.symm, hk.symm⟩), hl⟩, hc, hk⟩
  · rw [(hdata q).2.1, (hdata q).2.2]
    exact hb.keyed q ((hr.live_iff q).mp h).2
  · rw [hr.size]; exact hb.orderBound q ((hr.live_iff q).mp h).2
  · rw [hr.size, hr.cursor]; exact hb.orderCursor
  · rw [hsize]; exact hb.levelBound ℓ ((hlive ℓ).mp h).1
  · rw [hsize, hcur]; exact hb.levelCursor

theorem unlinked_orderPool {a c : OrderPtr} : (b.unlinked p a c ℓ).orderPool =
    ((b.orderPool.write a fun x => { x with nextOrder := some c }).write c
      fun x => { x with prevOrder := some a }).write p fun x => { x with prevOrder := none, nextOrder := none } := by
  unfold unlinked
  dsimp only
  split <;> rfl

@[simp] theorem live_unlinked {a c : OrderPtr} (q : OrderPtr) :
    (b.unlinked p a c ℓ).orderPool.Live q ↔ b.orderPool.Live q := by
  simp [unlinked_orderPool]

theorem next_unlinked {a c q : OrderPtr} (h : q ≠ p) :
    (b.unlinked p a c ℓ).nextOrder q = if q = a then some c else b.nextOrder q := by
  simp only [nextOrder, unlinked_orderPool, MemPool.get_write, if_neg h]
  split_ifs <;> simp_all

theorem prev_unlinked {a c q : OrderPtr} (h : q ≠ p) :
    (b.unlinked p a c ℓ).prevOrder q = if q = c then some a else b.prevOrder q := by
  simp only [prevOrder, unlinked_orderPool, MemPool.get_write, if_neg h]
  split_ifs <;> simp_all

@[simp] theorem content_unlinked {a c : OrderPtr} (q : OrderPtr) :
    (b.unlinked p a c ℓ).content q = b.content q := by
  rw [content, content, unlinked_orderPool]
  simp only [MemPool.get_write]
  split_ifs <;> simp_all

theorem level_unlinked {a c : OrderPtr} (ℓ' : LevelPtr) :
    (b.unlinked p a c ℓ).ordersAtPricePool.get ℓ' =
      if ℓ' = ℓ ∧ (b.ordersAtPricePool.get ℓ).firstMeOrder = some p
      then { b.ordersAtPricePool.get ℓ with firstMeOrder := some c } else b.ordersAtPricePool.get ℓ' := by
  unfold unlinked
  by_cases h : (b.ordersAtPricePool.get ℓ).firstMeOrder = some p
  · by_cases hℓ : ℓ' = ℓ
    · simp [h, hℓ, MemPool.get_write]
    · simp [h, hℓ, MemPool.get_write]
  · simp [h]

/-- A level loses at most its first order. -/
theorem view_unlinked {γ : Type} (v : MEOrdersAtPrice → γ) (hv : ∀ o f, v { o with firstMeOrder := f } = v o)
    {a c : OrderPtr} (ℓ' : LevelPtr) :
    v ((b.unlinked p a c ℓ).ordersAtPricePool.get ℓ') = v (b.ordersAtPricePool.get ℓ') := by
  rw [level_unlinked]
  split_ifs with h
  · rw [hv, h.1]
  · rfl

theorem frame_unlinked {a c : OrderPtr} :
    (∀ ℓ', (b.unlinked p a c ℓ).ordersAtPricePool.Live ℓ' ↔ b.ordersAtPricePool.Live ℓ') ∧
    (b.unlinked p a c ℓ).ordersAtPricePool.size = b.ordersAtPricePool.size ∧
    (b.unlinked p a c ℓ).ordersAtPricePool.nextFreeIndex = b.ordersAtPricePool.nextFreeIndex ∧
    (b.unlinked p a c ℓ).priceOrdersAtPriceHashMap = b.priceOrdersAtPriceHashMap ∧
    (b.unlinked p a c ℓ).cidOidToOrder = b.cidOidToOrder ∧ (b.unlinked p a c ℓ).asksAtPrice = b.asksAtPrice ∧
    (b.unlinked p a c ℓ).journal = b.journal := by
  unfold unlinked
  dsimp only
  split <;> simp [journal]

/-- An order of a heap in order either goes with its level or has two neighbours. -/
theorem unlinkOrder_cases (hb : HeapInv b ring) (hp : b.orderPool.Live p) :
    (ring (b.slotOf p) = [p] ∧ unlinkOrder (some p) (b.orderPool.get p) (b.priceOrdersAtPriceHashMap (b.slotOf p)) =
      removeOrdersAtPrice (b.orderPool.get p).side (b.orderPool.get p).price) ∨
    (ring (b.slotOf p) ≠ [p] ∧ ∃ a c ℓ, b.prevOrder p = some a ∧ b.nextOrder p = some c ∧
      b.priceOrdersAtPriceHashMap (b.slotOf p) = some ℓ ∧ (a ∈ ring (b.slotOf p) ∧ a ≠ p) ∧ (c ∈ ring (b.slotOf p) ∧ c ≠ p) ∧
      unlinkOrder (some p) (b.orderPool.get p) (b.priceOrdersAtPriceHashMap (b.slotOf p)) b =
        .ok () (b.unlinked p a c ℓ)) := by
  have hm := hb.mem_slotOf hp
  have hself := (hb.links _).prev_self_iff (hb.nodup _) hm
  by_cases halone : ring (b.slotOf p) = [p]
  · refine .inl ⟨halone, ?_⟩
    unfold unlinkOrder
    rw [if_pos (hself.mpr halone)]
  · refine .inr ⟨halone, ?_⟩
    have hne := fun e => halone (hself.mp e)
    obtain ⟨l₁, l₂, hl⟩ := List.append_of_mem hm
    have hrest : l₁ ++ l₂ ≠ [] := by
      intro e
      obtain ⟨rfl, rfl⟩ := List.append_eq_nil_iff.mp e
      exact halone hl
    have hlinks := hb.links (b.slotOf p)
    have hnd := hb.nodup (b.slotOf p)
    rw [hl] at hlinks hnd
    obtain ⟨a, ha, hprev, hnext⟩ := hlinks.neighbours hrest
    obtain ⟨c, hc, hnext⟩ := hnext.resolve_right fun e => e.1
    have hmem : ∀ x ∈ l₁ ++ l₂, x ∈ ring (b.slotOf p) ∧ x ≠ p := by
      intro x hx
      refine ⟨?_, ne_of_mem_of_not_mem hx (List.nodup_cons.mp (List.nodup_middle.mp hnd)).1⟩
      rw [hl]
      rcases List.mem_append.mp hx with hx | hx
      · exact List.mem_append_left _ hx
      · exact List.mem_append_right _ (List.mem_cons_of_mem _ hx)
    have ham := hmem a ha
    have hcm := hmem c hc
    obtain ⟨ℓ, hℓ⟩ := hb.level_of_mem hm
    refine ⟨a, c, ℓ, hprev, hnext, hℓ, ham, hcm, ?_⟩
    rw [hℓ]
    exact unlinkOrder_of_inner hne hprev hnext hp ((hb.member _ _).mp ham.1).1 ((hb.member _ _).mp hcm.1).1
      (hb.level _ _ hℓ).1

/-- An order that is alone goes with its level. -/
private theorem heap_dropLevel (hb : HeapInv b ring) (hlive : b.orderPool.Live p) (halone : ring (b.slotOf p) = [p])
    (hu : removeOrdersAtPrice (b.orderPool.get p).side (b.orderPool.get p).price b = .ok u b') :
    Removed b (dropped b' p (b.orderPool.get p)) p ∧
      HeapInv (dropped b' p (b.orderPool.get p)) (Function.update ring (b.slotOf p) ((ring (b.slotOf p)).erase p)) := by
  obtain ⟨ℓ, b₂, hℓ, hul, -, -, rfl⟩ := removeOrdersAtPrice_ok.mp hu
  have hf := (relinks_unlinkLevel _ _ _).of_ok hul
  have hr : Removed b (dropped { b₂ with
      priceOrdersAtPriceHashMap := Function.update b.priceOrdersAtPriceHashMap (b.slotOf p) none
      ordersAtPricePool := b₂.ordersAtPricePool.release ℓ } p (b.orderPool.get p)) p :=
    ⟨hlive, fun q => by simp [dropped, MemPool.live_release, hf.orderPool],
      fun q => by simp [content, dropped, hf.orderPool], fun c k => by simp [dropped, hf.index],
      hf.journal, by simp [dropped, hf.orderPool], by simp [dropped, hf.orderPool]⟩
  refine ⟨hr, heap_of_removed hb hr rfl (fun t ht => ?_) (fun ℓ' => ?_) (fun ℓ' => ?_) (fun ℓ' => ?_)
    (fun ℓ' hl' => ?_) hf.levelSize hf.levelCursor ?_ (fun t ht q hq => ?_)⟩
  · simp [dropped, Function.update_of_ne ht]
  · simp [dropped, halone]
  · simp only [dropped, MemPool.live_release, hf.levelLive, halone, hℓ, Option.some.injEq, and_true]
    rw [and_comm, eq_comm (a := ℓ)]
  · simp [dropped, hf.levelPrice]
  · have hne : ℓ' ≠ ℓ := ((MemPool.live_release _ _ _).mp hl').1
    rw [if_neg (by rw [hℓ]; exact fun e => hne (Option.some.inj e).symm)]
    simp [dropped, hf.levelFirst]
  · rw [halone, List.erase_cons_head]; exact .nil
  · simp [dropped, nextOrder, prevOrder, hf.orderPool]

/-- The first order of a level after one with neighbours left: the ring without it begins there. -/
private theorem first_unlinked (hb : HeapInv b ring) {a c : OrderPtr} (halone : ring (b.slotOf p) ≠ [p])
    (hlive : b.orderPool.Live p) (hc : b.nextOrder p = some c) (hℓ : b.priceOrdersAtPriceHashMap (b.slotOf p) = some ℓ) :
    ((b.unlinked p a c ℓ).ordersAtPricePool.get ℓ').firstMeOrder =
      if some ℓ = some ℓ' then ((ring (b.slotOf p)).erase p).head? else (b.ordersAtPricePool.get ℓ').firstMeOrder := by
  obtain ⟨l₁, l₂, hl⟩ := List.append_of_mem (hb.mem_slotOf hlive)
  have hnd := hb.nodup (b.slotOf p)
  have hlinks := hb.links (b.slotOf p)
  have hf := (hb.level _ _ hℓ).2.1
  rw [hl] at hlinks hnd hf halone
  have hpl : p ∉ l₁ ++ l₂ := (List.nodup_cons.mp (List.nodup_middle.mp hnd)).1
  rw [level_unlinked, hl, List.erase_append_right _ fun h => hpl (List.mem_append_left _ h), List.erase_cons_head]
  rcases l₁ with _ | ⟨d, m⟩
  · -- the first order leaves: the level's pointer moves on to the next one
    have hnil : l₂ ≠ [] := fun e => halone (by rw [e, List.nil_append])
    have hc' := hlinks.next_of_split.resolve_right fun e => e.1
    obtain ⟨e, n, rfl⟩ := List.exists_cons_of_ne_nil hnil
    obtain rfl : c = e := Option.some.inj (hc.symm.trans hc')
    by_cases h : ℓ' = ℓ
    · subst h; simp [hf]
    · simp [h, Ne.symm h]
  · have hd : d ≠ p := fun e => hpl (by simp [e])
    have hfd : (b.ordersAtPricePool.get ℓ).firstMeOrder = some d := hf
    by_cases h : ℓ' = ℓ
    · subst h; simp [hfd, hd]
    · simp [h, Ne.symm h]

/-- An order between two neighbours leaves the ring of its level. -/
private theorem heap_dropOrder (hb : HeapInv b ring) (hlive : b.orderPool.Live p) {a c : OrderPtr}
    (halone : ring (b.slotOf p) ≠ [p]) (ha : b.prevOrder p = some a) (hc : b.nextOrder p = some c)
    (hℓ : b.priceOrdersAtPriceHashMap (b.slotOf p) = some ℓ) (ham : a ∈ ring (b.slotOf p) ∧ a ≠ p)
    (hcm : c ∈ ring (b.slotOf p) ∧ c ≠ p) : Removed b (dropped (b.unlinked p a c ℓ) p (b.orderPool.get p)) p ∧
      HeapInv (dropped (b.unlinked p a c ℓ) p (b.orderPool.get p))
        (Function.update ring (b.slotOf p) ((ring (b.slotOf p)).erase p)) := by
  have hm := hb.mem_slotOf hlive
  have hnd := hb.nodup (b.slotOf p)
  obtain ⟨hlv, hsz, hcu, hsl, hix, -, hjr⟩ := @frame_unlinked b p ℓ a c
  have hr : Removed b (dropped (b.unlinked p a c ℓ) p (b.orderPool.get p)) p :=
    ⟨hlive, fun q => by simp, fun q => by simp, fun c k => by simp [dropped, hix],
      hjr, by simp [dropped, unlinked_orderPool], by simp [dropped, unlinked_orderPool]⟩
  have hnext : ∀ q ≠ p, nextOrder (dropped (b.unlinked p a c ℓ) p (b.orderPool.get p)) q =
      if q = a then some c else b.nextOrder q := fun q hq => by rw [next_dropped, next_unlinked hq]
  have hprev : ∀ q ≠ p, prevOrder (dropped (b.unlinked p a c ℓ) p (b.orderPool.get p)) q =
      if q = c then some a else b.prevOrder q := fun q hq => by rw [prev_dropped, prev_unlinked hq]
  refine ⟨hr, heap_of_removed hb hr rfl (fun t _ => by simp [dropped, hsl]) (fun ℓ' => ?_) (fun ℓ' => ?_)
    (fun ℓ' => ?_) (fun ℓ' _ => ?_) hsz hcu ?_ (fun t ht q hq => ?_)⟩
  · simp [dropped, hsl, halone]
  · simp [dropped, hlv, halone]
  · exact view_unlinked MEOrdersAtPrice.price (fun _ _ => rfl) ℓ'
  · rw [hℓ]
    exact first_unlinked hb halone hlive hc hℓ
  · obtain ⟨l₁, l₂, hl⟩ := List.append_of_mem hm
    have hlinks := hb.links (b.slotOf p)
    rw [hl] at hlinks hnd halone
    have hpl : p ∉ l₁ ++ l₂ := (List.nodup_cons.mp (List.nodup_middle.mp hnd)).1
    have hnil : l₁ ++ l₂ ≠ [] := by
      intro e
      obtain ⟨rfl, rfl⟩ := List.append_eq_nil_iff.mp e
      exact halone rfl
    have hne : ∀ x ∈ l₁ ++ l₂, x ≠ p := fun x hx => ne_of_mem_of_not_mem hx hpl
    rw [hl, List.erase_append_right _ fun h => hpl (List.mem_append_left _ h), List.erase_cons_head]
    refine hlinks.remove hnd hnil ha hc ?_ ?_ (fun x hx hxa => ?_) (fun x hx hxc => ?_)
    · rw [hnext a ham.2, if_pos rfl]
    · rw [hprev c hcm.2, if_pos rfl]
    · rw [hnext x (hne x hx), if_neg hxa]
    · rw [hprev x (hne x hx), if_neg hxc]
  · have hq' : q ∉ ring (b.slotOf p) := fun hq' =>
      ht (((hb.member t q).mp hq).2.symm.trans ((hb.member _ q).mp hq').2)
    rw [hnext q (ne_of_mem_of_not_mem hm hq').symm, hprev q (ne_of_mem_of_not_mem hm hq').symm,
      if_neg (ne_of_mem_of_not_mem ham.1 hq').symm, if_neg (ne_of_mem_of_not_mem hcm.1 hq').symm]
    exact ⟨rfl, rfl⟩

/-- A removal that returns keeps the heap in order: the order leaves its ring. -/
theorem heap_removeOrder (hb : HeapInv b ring) (h : removeOrder (some p) b = .ok u b') :
    Removed b b' p ∧ HeapInv b' (Function.update ring (b.slotOf p) ((ring (b.slotOf p)).erase p)) := by
  obtain ⟨hlive, -, -, b₁, hu, rfl⟩ := removeOrder_ok.mp h
  rcases unlinkOrder_cases hb hlive with ⟨halone, he⟩ | ⟨halone, a, c, ℓ, ha, hc, hℓ, ham, hcm, he⟩
  · rw [he] at hu
    exact heap_dropLevel hb hlive halone hu
  · rw [he] at hu
    cases hu
    exact heap_dropOrder hb hlive halone ha hc hℓ ham hcm

end TradingEcosystem.MEOrderBook
