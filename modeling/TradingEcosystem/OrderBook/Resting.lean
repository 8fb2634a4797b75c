import TradingEcosystem.OrderBook.Heap

/-! `getNextPriority`, `addOrder` and `rest` on a book whose heap is in order: the new
order comes last in the ring of its slot, in a new level if the slot had none. -/
namespace TradingEcosystem.MEOrderBook
open Program LinkedRing
variable {b b' : MEOrderBook} {ring : Slot → List OrderPtr} {s : Slot} {p : OrderPtr} {ℓ : LevelPtr} {u : Unit}
  {o : MEOrder}

/-- The priority that the next order of a slot is given. -/
def priorityAfter (b : MEOrderBook) (l : List OrderPtr) : Priority :=
  match l.getLast? with
  | none => 1
  | some t => (b.orderPool.get t).priority + 1

theorem getNextPriority_ok (hb : HeapInv b ring) {price : Price} {r : Priority}
    (h : getNextPriority price b = .ok r b') : b' = b ∧ r = b.priorityAfter (ring (priceToIndex price)) := by
  simp only [getNextPriority, bind_eq_ok, getOrdersAtPrice_ok] at h
  obtain ⟨slot, b, ⟨rfl, rfl⟩, h⟩ := h
  unfold priorityAfter
  by_cases hn : b.priceOrdersAtPriceHashMap (priceToIndex price) = none
  · rw [if_pos hn] at h
    cases h
    rw [(hb.empty _).mp hn]
    exact ⟨rfl, rfl⟩
  · rw [if_neg hn] at h
    obtain ⟨ℓ, hℓ⟩ := Option.ne_none_iff_exists'.mp hn
    simp only [bind_eq_ok, level_ok, order_ok] at h
    obtain ⟨l, b, ⟨_, hℓ', -, rfl, rfl⟩, f, b, ⟨q, hq, -, rfl, rfl⟩, x, b, ⟨t, ht, -, rfl, rfl⟩, h⟩ := h
    obtain rfl := Option.some.inj (hℓ'.symm.trans hℓ)
    obtain ⟨d, m, hr, hf⟩ := hb.head_of_level hℓ
    obtain rfl := Option.some.inj (hq.symm.trans hf)
    have hlast : (ring (priceToIndex price)).getLast? = some t := by
      obtain ⟨e, he⟩ : ∃ e, (ring (priceToIndex price)).getLast? = some e := by rw [hr]; exact ⟨_, List.getLast?_cons⟩
      rw [he, ← (hb.links _).back q (by rw [hr]; rfl) e he]
      exact ht
    rw [hlast]
    cases h
    exact ⟨rfl, rfl⟩

theorem addOrdersAtPrice_ok {n : LevelPtr} (h : addOrdersAtPrice n b = .ok u b') :
    Relinked { b with
      priceOrdersAtPriceHashMap := Function.update b.priceOrdersAtPriceHashMap
        (priceToIndex (b.ordersAtPricePool.get n).price) (some n) } b' := by
  simp only [addOrdersAtPrice, bind_eq_ok, level_ok, setOrdersAtPrice_ok] at h
  obtain ⟨new, b, ⟨_, hn, -, rfl, rfl⟩, _, _, rfl, h⟩ := h
  cases hn
  refine Frame.of_ok (.bind (relinks_bestOrdersByPrice _) fun best => .ite ?_ ?_) (bind_eq_ok.mpr h)
  · exact .bind (relinks_assignBestOrdersByPrice _ _) fun _ => relinks_setLevel _ fun _ => rfl
  · exact .bind (relinks_findTarget _ _) fun r => .ite (relinks_insertAfter _ _ _) (relinks_insertBefore _ _ _)

/-- The book when `addOrdersAtPrice` is called for the new level `n` of order `p`. -/
def opened (b : MEOrderBook) (p : OrderPtr) (o : MEOrder) (n : LevelPtr) (next : Nat) : MEOrderBook :=
  { (b.writeOrder p fun x => { x with nextOrder := some p, prevOrder := some p }) with
    ordersAtPricePool := b.ordersAtPricePool.take n
      { side := o.side, price := o.price, firstMeOrder := some p, prevEntry := none, nextEntry := none } next }

/-- The book after `p` was linked in between the last order `t` and the first order `d`. -/
def appended (b : MEOrderBook) (p t d : OrderPtr) : MEOrderBook :=
  (((b.writeOrder t fun x => { x with nextOrder := some p }).writeOrder p
    fun x => { x with prevOrder := some t }).writeOrder p fun x => { x with nextOrder := some d }).writeOrder d
    fun x => { x with prevOrder := some p }

theorem linkOrder_none_ok (h : linkOrder p o none b = .ok u b') :
    ∃ next, (b.ordersAtPricePool.nextFreeIndex < b.ordersAtPricePool.size → next < b.ordersAtPricePool.size) ∧
      ¬ b.ordersAtPricePool.Live b.ordersAtPricePool.nextFreeIndex ∧
      addOrdersAtPrice b.ordersAtPricePool.nextFreeIndex
        (b.opened p o b.ordersAtPricePool.nextFreeIndex next) = .ok () b' := by
  simp only [linkOrder, if_pos, bind_eq_ok, setOrder_ok] at h
  obtain ⟨_, _, ⟨_, hp, -, rfl⟩, n, b₁, ha, h⟩ := h
  cases hp
  obtain ⟨rfl, hl, next, hn, rfl⟩ := allocateLevel_ok ha
  exact ⟨next, hn, hl, h⟩

theorem linkOrder_some {t d : OrderPtr} (hℓ : b.ordersAtPricePool.Live ℓ)
    (hd : (b.ordersAtPricePool.get ℓ).firstMeOrder = some d) (ht : b.prevOrder d = some t)
    (hlp : b.orderPool.Live p) (hld : b.orderPool.Live d) (hlt : b.orderPool.Live t) :
    linkOrder p o (some ℓ) b = .ok () (b.appended p t d) := by
  have hread : ((b.writeOrder t fun x => { x with nextOrder := some p }).orderPool.get d).prevOrder = some t := by
    rw [writeOrder_orderPool, MemPool.get_write]
    split
    · rename_i h; subst h; exact ht
    · exact ht
  unfold linkOrder appended
  rw [if_neg (by simp), bind_of_ok (level_of_live hℓ), hd, bind_of_ok (order_of_live hld),
    show (b.orderPool.get d).prevOrder = some t from ht, bind_of_ok (setOrder_of_live hlt), bind_of_ok (order_of_live (by simpa using hld)), hread,
    bind_of_ok (setOrder_of_live (by simpa using hlp)), bind_of_ok (setOrder_of_live (by simpa using hlp)),
    setOrder_of_live (by simpa using hld)]

theorem addOrder_ok (h : addOrder p b = .ok u b') :
    ∃ b₁, linkOrder p (b.orderPool.get p) (b.priceOrdersAtPriceHashMap (b.slotOf p)) b = .ok () b₁ ∧
      ((b.orderPool.get p).clientId.toNat < ME_MAX_NUM_CLIENTS ∧
        (b.orderPool.get p).clientOrderId.toNat < ME_MAX_ORDER_IDS) ∧
      b' = { b₁ with cidOidToOrder := fun c k =>
        if c = (b.orderPool.get p).clientId ∧ k = (b.orderPool.get p).clientOrderId then some p
        else b₁.cidOidToOrder c k } := by
  simp only [addOrder, bind_eq_ok, order_ok, getOrdersAtPrice_ok, setCidOidToOrder_ok] at h
  obtain ⟨o, b, ⟨_, hp, -, rfl, rfl⟩, slot, b, ⟨rfl, rfl⟩, _, b₁, hl, hk, rfl⟩ := h
  cases hp
  exact ⟨b₁, hl, hk, rfl⟩

/-- What a new order changes, seen from the orders. -/
structure Added (b b' : MEOrderBook) (p : OrderPtr) (o : MEOrder) : Prop where
  free : ¬ b.orderPool.Live p
  live_iff : ∀ q, b'.orderPool.Live q ↔ q = p ∨ b.orderPool.Live q
  content_self : b'.content p = o
  content : ∀ q ≠ p, b'.content q = b.content q
  index : ∀ c k, b'.cidOidToOrder c k =
    if c = o.clientId ∧ k = o.clientOrderId then some p else b.cidOidToOrder c k
  journal : b'.journal = b.journal
  size : b'.orderPool.size = b.orderPool.size

theorem Added.view {γ : Type} (ha : Added b b' p o) (v : MEOrder → γ)
    (hv : ∀ o : MEOrder, v { o with prevOrder := none, nextOrder := none } = v o := by intro; rfl) :
    v (b'.orderPool.get p) = v o := by
  rw [← hv (b'.orderPool.get p)]
  exact congrArg v ha.content_self

theorem Added.ne (ha : Added b b' p o) {q : OrderPtr} (hq : b.orderPool.Live q) : q ≠ p := fun e => ha.free (e ▸ hq)

/-- A new order keeps the heap in order if it closes the ring again and the slot's level,
old or new, is the one at `n`. -/
private theorem heap_of_added (hb : HeapInv b ring) (ha : Added b b' p o) (hs : s = priceToIndex o.price)
    (hkey : o.clientId.toNat < ME_MAX_NUM_CLIENTS ∧ o.clientOrderId.toNat < ME_MAX_ORDER_IDS)
    (hp : p < b.orderPool.size) (hcur : b'.orderPool.nextFreeIndex < b'.orderPool.size) {n : LevelPtr}
    (hother : ∀ t ≠ s, b'.priceOrdersAtPriceHashMap t = b.priceOrdersAtPriceHashMap t)
    (hslot : b'.priceOrdersAtPriceHashMap s = some n)
    (hn : b'.ordersAtPricePool.Live n ∧ (b'.ordersAtPricePool.get n).firstMeOrder = (ring s ++ [p]).head? ∧
      priceToIndex (b'.ordersAtPricePool.get n).price = s ∧ n < b'.ordersAtPricePool.size)
    (hold : b.priceOrdersAtPriceHashMap s = some n ∨
      b.priceOrdersAtPriceHashMap s = none ∧ ¬ b.ordersAtPricePool.Live n)
    (hlevel : ∀ ℓ ≠ n, (b'.ordersAtPricePool.Live ℓ ↔ b.ordersAtPricePool.Live ℓ) ∧
      (b'.ordersAtPricePool.get ℓ).firstMeOrder = (b.ordersAtPricePool.get ℓ).firstMeOrder ∧
      (b'.ordersAtPricePool.get ℓ).price = (b.ordersAtPricePool.get ℓ).price)
    (hlsize : b'.ordersAtPricePool.size = b.ordersAtPricePool.size)
    (hlcur : b'.ordersAtPricePool.nextFreeIndex < b'.ordersAtPricePool.size)
    (hlink : Ring False b'.nextOrder b'.prevOrder (ring s ++ [p]))
    (hlinks : ∀ t ≠ s, ∀ q ∈ ring t, b'.nextOrder q = b.nextOrder q ∧ b'.prevOrder q = b.prevOrder q) :
    HeapInv b' (Function.update ring s (ring s ++ [p])) := by
  have hnp : ∀ t, p ∉ ring t := fun t h => ha.free ((hb.member t p).mp h).1
  have hnodup : (ring s ++ [p]).Nodup := List.nodup_append.mpr ⟨hb.nodup s, List.nodup_singleton p, fun x hx y hy e =>
    hnp s (List.mem_singleton.mp hy ▸ e ▸ hx)⟩
  refine ⟨fun t => ?_, fun t ℓ h => ?_, fun ℓ h => ?_, hb.links_update hlink hlinks, hb.nodup_update hnodup,
    fun t q => ?_, fun c k q h => ?_, fun q h => ?_, fun q h => ?_, hcur, fun ℓ h => ?_, hlcur⟩
  · by_cases ht : t = s
    · subst ht; simp [hslot]
    · rw [hother t ht, Function.update_of_ne ht]; exact hb.empty t
  · by_cases ht : t = s
    · subst ht
      obtain rfl := Option.some.inj (hslot.symm.trans h)
      rw [Function.update_self]
      exact ⟨hn.1, hn.2.1, hn.2.2.1⟩
    · rw [hother t ht] at h
      obtain ⟨hl, hf, hpr⟩ := hb.level t ℓ h
      have hℓ : ℓ ≠ n := by
        rintro rfl
        rcases hold with e | e
        · exact ht (hb.slot_inj h e)
        · exact e.2 hl
      obtain ⟨hl', hf', hp'⟩ := hlevel ℓ hℓ
      rw [hl', hf', hp', Function.update_of_ne ht]
      exact ⟨hl, hf, hpr⟩
  · by_cases hℓ : ℓ = n
    · rw [hℓ, hn.2.2.1, hslot]
    · obtain ⟨hl', -, hp'⟩ := hlevel ℓ hℓ
      have hh := hb.home ℓ (hl'.mp h)
      have ht : priceToIndex (b.ordersAtPricePool.get ℓ).price ≠ s := by
        intro e
        rw [e] at hh
        rcases hold with e' | e'
        · exact hℓ (Option.some.inj (hh.symm.trans e'))
        · rw [e'.1] at hh; cases hh
      rw [hp', hother _ ht, hh]
  · by_cases hq : q = p
    · subst hq
      rw [ha.live_iff, slotOf, ha.view MEOrder.price, ← hs]
      by_cases ht : t = s
      · subst ht; simp
      · rw [Function.update_of_ne ht]
        exact iff_of_false (hnp t) (fun h => ht h.2.symm)
    · rw [ha.live_iff, slotOf, view_of_content MEOrder.price (ha.content q hq), or_iff_right hq]
      have hm := hb.member t q
      by_cases ht : t = s
      · subst ht; simpa [hq] using hm
      · rw [Function.update_of_ne ht]; exact hm
  · rw [ha.index] at h
    split at h
    · rename_i hck
      cases h
      rw [ha.live_iff, ha.view MEOrder.clientId, ha.view MEOrder.clientOrderId]
      exact ⟨.inl rfl, hck.1.symm, hck.2.symm⟩
    · obtain ⟨hl, hc, hk⟩ := hb.indexed c k q h
      rw [ha.live_iff, view_of_content MEOrder.clientId (ha.content q (ha.ne hl)),
        view_of_content MEOrder.clientOrderId (ha.content q (ha.ne hl))]
      exact ⟨.inr hl, hc, hk⟩
  · by_cases hq : q = p
    · rw [hq, ha.view MEOrder.clientId, ha.view MEOrder.clientOrderId]
      exact hkey
    · rw [view_of_content MEOrder.clientId (ha.content q hq), view_of_content MEOrder.clientOrderId (ha.content q hq)]
      exact hb.keyed q (((ha.live_iff q).mp h).resolve_left hq)
  · rw [ha.size]
    rcases (ha.live_iff q).mp h with rfl | hq
    · exact hp
    · exact hb.orderBound q hq
  · by_cases hℓ : ℓ = n
    · rw [hℓ]; exact hn.2.2.2
    · rw [hlsize]; exact hb.levelBound ℓ ((hlevel ℓ hℓ).1.mp h)

private theorem next_appended {t d q : OrderPtr} (ht : p ≠ t) :
    (b.appended p t d).nextOrder q = if q = p then some d else if q = t then some p else b.nextOrder q := by
  simp only [nextOrder, appended, writeOrder_orderPool, MemPool.get_write]
  split_ifs <;> simp_all

private theorem prev_appended {t d q : OrderPtr} (hd : p ≠ d) :
    (b.appended p t d).prevOrder q = if q = p then some t else if q = d then some p else b.prevOrder q := by
  simp only [prevOrder, appended, writeOrder_orderPool, MemPool.get_write]
  split_ifs <;> simp_all

private theorem content_appended {t d : OrderPtr} (q : OrderPtr) : (b.appended p t d).content q = b.content q := by
  simp only [content, appended, writeOrder_orderPool, MemPool.get_write]
  split_ifs <;> simp_all

/-- `cid_oid_to_order_` after an order was entered. -/
def indexed (b : MEOrderBook) (p : OrderPtr) (o : MEOrder) : MEOrderBook :=
  { b with cidOidToOrder := fun c k => if c = o.clientId ∧ k = o.clientOrderId then some p else b.cidOidToOrder c k }

/-- Where the slot has a level, the order becomes the last one of its ring. -/
private theorem added_old (hb : HeapInv b ring) (ho : { o with prevOrder := none, nextOrder := none } = o)
    (hs : s = priceToIndex o.price) (hkey : o.clientId.toNat < ME_MAX_NUM_CLIENTS ∧ o.clientOrderId.toNat < ME_MAX_ORDER_IDS)
    (hfree : ¬ b.orderPool.Live p) (hp : p < b.orderPool.size) {next : Nat} (hnext : next < b.orderPool.size)
    (hℓ : b.priceOrdersAtPriceHashMap s = some ℓ) :
    ∃ t d, (ring s).getLast? = some t ∧ (ring s).head? = some d ∧
      linkOrder p o (some ℓ) (b.taken p o next) = .ok () ((b.taken p o next).appended p t d) ∧
      Added b (((b.taken p o next).appended p t d).indexed p o) p o ∧
      HeapInv (((b.taken p o next).appended p t d).indexed p o) (Function.update ring s (ring s ++ [p])) := by
  obtain ⟨d, m, hr, hf⟩ := hb.head_of_level hℓ
  obtain ⟨t, ht⟩ : ∃ t, (ring s).getLast? = some t := by rw [hr]; exact ⟨_, List.getLast?_cons⟩
  have hd : (ring s).head? = some d := by rw [hr]; rfl
  have hdm := List.mem_of_mem_head? hd
  have htm := List.mem_of_getLast? ht
  have hld := ((hb.member _ _).mp hdm).1
  have hlt := ((hb.member _ _).mp htm).1
  have hnp : ∀ {q}, b.orderPool.Live q → q ≠ p := fun hq e => hfree (e ▸ hq)
  have hback := (hb.links s).back d hd t ht
  have hget : ∀ q ≠ p, (b.taken p o next).orderPool.get q = b.orderPool.get q := fun q hq => by
    simp [taken, MemPool.get_take, hq]
  have hnx : ∀ q ≠ p, (b.taken p o next).nextOrder q = b.nextOrder q := fun q hq => by rw [nextOrder, hget q hq]
  have hpv : ∀ q ≠ p, (b.taken p o next).prevOrder q = b.prevOrder q := fun q hq => by rw [prevOrder, hget q hq]
  obtain ⟨hll, -, hlp⟩ := hb.level s ℓ hℓ
  have hadd : Added b (((b.taken p o next).appended p t d).indexed p o) p o := by
    refine ⟨hfree, fun q => ?_, ?_, fun q hq => ?_, fun c k => ?_, ?_, ?_⟩
    · simp [indexed, appended, taken, MemPool.live_take]
    · refine (content_appended p).trans ?_
      rw [content, taken, MemPool.get_take, if_pos rfl, ho]
    · refine (content_appended q).trans ?_
      rw [content, hget q hq, content]
    · simp [indexed, appended, taken]
    · simp [journal, indexed, appended, taken]
    · simp [indexed, appended, taken]
  refine ⟨t, d, ht, hd, ?_, hadd, ?_⟩
  · exact linkOrder_some hll hf (by rw [hpv d (hnp hld)]; exact hback) (by simp [taken, MemPool.live_take])
      (by simp [taken, MemPool.live_take, hld]) (by simp [taken, MemPool.live_take, hlt])
  · have hslots : (((b.taken p o next).appended p t d).indexed p o).priceOrdersAtPriceHashMap =
        b.priceOrdersAtPriceHashMap := by simp [indexed, appended, taken]
    have hlevels : (((b.taken p o next).appended p t d).indexed p o).ordersAtPricePool = b.ordersAtPricePool := by
      simp [indexed, appended, taken]
    refine heap_of_added hb hadd hs hkey hp (by simpa [indexed, appended, taken] using hnext) (fun t' _ => by rw [hslots]) (by rw [hslots, hℓ]) ?_ (.inl hℓ)
      (fun ℓ' _ => by rw [hlevels]; exact ⟨Iff.rfl, rfl, rfl⟩) (by rw [hlevels]) (by rw [hlevels]; exact hb.levelCursor)
      ?_ (fun t' ht' q hq => ?_)
    · rw [hlevels, List.head?_append, hd]
      exact ⟨hll, hf, hlp, hb.levelBound ℓ hll⟩
    · have hN : ∀ q, nextOrder (((b.taken p o next).appended p t d).indexed p o) q =
          if q = p then some d else if q = t then some p else (b.taken p o next).nextOrder q :=
        fun q => next_appended (hnp hlt).symm
      have hP : ∀ q, prevOrder (((b.taken p o next).appended p t d).indexed p o) q =
          if q = p then some t else if q = d then some p else (b.taken p o next).prevOrder q :=
        fun q => prev_appended (hnp hld).symm
      have hin : ∀ x ∈ ring s, x ≠ p := fun x hx => hnp ((hb.member _ _).mp hx).1
      refine (hb.links s).push_back (hb.nodup s) hd ht ?_ ?_ ?_ (fun x hx hxt => ?_) (fun x hx hxd => ?_)
        (hnp hld).symm (.inl ?_)
      · rw [hN, if_neg (hnp hlt), if_pos rfl]
      · rw [hP, if_pos rfl]
      · rw [hP, if_neg (hnp hld), if_pos rfl]
      · rw [hN, if_neg (hin x hx), if_neg hxt, hnx x (hin x hx)]
      · rw [hP, if_neg (hin x hx), if_neg hxd, hpv x (hin x hx)]
      · rw [hN, if_pos rfl]
    · have hqm := (hb.member _ _).mp hq
      have hqp := hnp hqm.1
      have hqs : ∀ x ∈ ring s, q ≠ x := fun x hx e =>
        ht' (hqm.2.symm.trans ((hb.member s q).mp (e ▸ hx)).2)
      exact ⟨by rw [← hnx q hqp]; exact (next_appended (hnp hlt).symm).trans (by rw [if_neg hqp, if_neg (hqs t htm)]),
        by rw [← hpv q hqp]; exact (prev_appended (hnp hld).symm).trans (by rw [if_neg hqp, if_neg (hqs d hdm)])⟩

/-- Where the slot is empty, a new level is opened for the order. -/
private theorem added_new (hb : HeapInv b ring) (ho : { o with prevOrder := none, nextOrder := none } = o)
    (hs : s = priceToIndex o.price) (hkey : o.clientId.toNat < ME_MAX_NUM_CLIENTS ∧ o.clientOrderId.toNat < ME_MAX_ORDER_IDS)
    (hfree : ¬ b.orderPool.Live p) (hp : p < b.orderPool.size) {next next' : Nat} (hnext : next < b.orderPool.size)
    (hnext' : next' < b.ordersAtPricePool.size) (hℓ : b.priceOrdersAtPriceHashMap s = none) {n : LevelPtr}
    (hn : n < b.ordersAtPricePool.size ∧ ¬ b.ordersAtPricePool.Live n)
    (h : addOrdersAtPrice n ((b.taken p o next).opened p o n next') = .ok u b') :
    Added b (b'.indexed p o) p o ∧ HeapInv (b'.indexed p o) (Function.update ring s (ring s ++ [p])) := by
  have hf := addOrdersAtPrice_ok h
  have hnp : ∀ {q}, b.orderPool.Live q → q ≠ p := fun hq e => hfree (e ▸ hq)
  have horders : b'.orderPool = (b.orderPool.take p o next).write p
      fun x => { x with nextOrder := some p, prevOrder := some p } := by
    rw [hf.orderPool]; simp [opened, taken]
  have hget : ∀ q ≠ p, b'.orderPool.get q = b.orderPool.get q := fun q hq => by
    rw [horders, MemPool.get_write, if_neg hq, MemPool.get_take, if_neg hq]
  have hself : b'.orderPool.get p = { o with nextOrder := some p, prevOrder := some p } := by
    rw [horders, MemPool.get_write, if_pos rfl, MemPool.get_take, if_pos rfl]
  have hslots : b'.priceOrdersAtPriceHashMap = Function.update b.priceOrdersAtPriceHashMap s (some n) := by
    rw [hf.slots, hs]; simp [opened, taken, MemPool.get_take]
  have hring : ring s = [] := (hb.empty s).mp hℓ
  have hadd : Added b (b'.indexed p o) p o := by
    refine ⟨hfree, fun q => ?_, ?_, fun q hq => ?_, fun c k => ?_, ?_, ?_⟩
    · simp [indexed, horders, MemPool.live_take]
    · rw [show (b'.indexed p o).content p = b'.content p from rfl, content, hself]; exact ho
    · rw [show (b'.indexed p o).content q = b'.content q from rfl, content, hget q hq, content]
    · simp [indexed, hf.index, opened, taken]
    · rw [show (b'.indexed p o).journal = b'.journal from rfl, hf.journal]; simp [journal, opened, taken]
    · simp [indexed, horders]
  refine ⟨hadd, heap_of_added (n := n) hb hadd hs hkey hp ?_ (fun t ht => ?_) ?_ ?_ (.inr ⟨hℓ, hn.2⟩) (fun ℓ hne => ?_)
    ?_ ?_ ?_ (fun t ht q hq => ?_)⟩
  · simpa [indexed, horders] using hnext
  · simp [indexed, hslots, Function.update_of_ne ht]
  · simp [indexed, hslots]
  · simp only [indexed, hf.levelLive, hf.levelFirst, hf.levelPrice, hf.levelSize, hring]
    simp [opened, taken, MemPool.live_take, MemPool.get_take, hs, hn.1]
  · simp only [indexed, hf.levelLive, hf.levelFirst, hf.levelPrice]
    simp [opened, taken, MemPool.live_take, MemPool.get_take, hne]
  · simp [indexed, hf.levelSize, opened, taken]
  · simpa [indexed, hf.levelCursor, hf.levelSize, opened, taken] using hnext'
  · rw [hring]
    exact Ring.singleton_iff.mpr (by simp [nextOrder, prevOrder, indexed, hself])
  · have hqp := hnp ((hb.member _ _).mp hq).1
    simp [nextOrder, prevOrder, indexed, hget q hqp]

/-- The order that `rest` builds in a slot whose ring is `l`. -/
def remainder (b : MEOrderBook) (l : List OrderPtr) (no : Nat) (clientId : ClientId) (clientOrderId : OrderId)
    (tickerId : TickerId) (side : Side) (price : Price) (leavesQty : Qty) (id : OrderId) : MEOrder :=
  { tickerId, clientId, clientOrderId, marketOrderId := id, side, price, qty := leavesQty,
    priority := b.priorityAfter l, prevOrder := none, nextOrder := none, addNo := some no }

/-- How the new order `p` was linked in: behind the orders of an old level, whose links to
other levels stay, or in a new level. -/
inductive Placed (b b₁ : MEOrderBook) (s : Slot) (p : OrderPtr) (o : MEOrder) : Prop where
  | old {ℓ : LevelPtr} (slot : b.priceOrdersAtPriceHashMap s = some ℓ)
      (levels : b₁.ordersAtPricePool = b.ordersAtPricePool)
      (slots : b₁.priceOrdersAtPriceHashMap = b.priceOrdersAtPriceHashMap)
      (asks : b₁.asksAtPrice = b.asksAtPrice)
  | new {n : LevelPtr} {next next' : Nat} (slot : b.priceOrdersAtPriceHashMap s = none)
      (free : ¬ b.ordersAtPricePool.Live n)
      (placed : addOrdersAtPrice n ((b.taken p o next).opened p o n next') = .ok () b₁)

private theorem addOrder_taken (hb : HeapInv b ring) (ho : { o with prevOrder := none, nextOrder := none } = o)
    (hs : s = priceToIndex o.price) (hfree : ¬ b.orderPool.Live p) (hp : p < b.orderPool.size) {next : Nat}
    (hnext : next < b.orderPool.size) (h : addOrder p (b.taken p o next) = .ok u b') :
    ∃ b₁, Placed b b₁ s p o ∧ Added b (b₁.indexed p o) p o ∧
      HeapInv (b₁.indexed p o) (Function.update ring s (ring s ++ [p])) ∧ b' = b₁.indexed p o := by
  obtain ⟨b₁, hl, hk, rfl⟩ := addOrder_ok h
  have hget : (b.taken p o next).orderPool.get p = o := by simp [taken, MemPool.get_take]
  have hslot : (b.taken p o next).slotOf p = s := by rw [slotOf, hget, hs]
  rw [hget] at hk
  rw [hget, hslot, show (b.taken p o next).priceOrdersAtPriceHashMap = b.priceOrdersAtPriceHashMap from rfl] at hl
  rw [hget]
  cases hℓ : b.priceOrdersAtPriceHashMap s with
  | some ℓ =>
    obtain ⟨t, d, -, -, he, ha, hh⟩ := added_old hb ho hs hk hfree hp hnext hℓ
    rw [hℓ, he] at hl
    cases hl
    exact ⟨_, .old hℓ (by simp [appended, taken]) (by simp [appended, taken]) (by simp [appended, taken]), ha, hh, rfl⟩
  | none =>
    rw [hℓ] at hl
    obtain ⟨next', hnext', hn, hadd⟩ := linkOrder_none_ok hl
    have hcur := hb.levelCursor
    obtain ⟨ha, hh⟩ := added_new hb ho hs hk hfree hp hnext (hnext' hcur) hℓ ⟨hcur, hn⟩ hadd
    exact ⟨b₁, .new hℓ hn hadd, ha, hh, rfl⟩

/-- What `rest` does when it returns. -/
theorem rest_ok (hb : HeapInv b ring) {no : Nat} {clientId : ClientId} {clientOrderId : OrderId} {tickerId : TickerId}
    {side : Side} {price : Price} {leavesQty : Qty} {id : OrderId}
    (h : rest no clientId clientOrderId tickerId side price leavesQty id b = .ok u b') :
    ∃ p b₁ s o, s = priceToIndex price ∧
      o = b.remainder (ring s) no clientId clientOrderId tickerId side price leavesQty id ∧
      Placed b b₁ s p o ∧ Added b (b₁.indexed p o) p o ∧
      HeapInv (b₁.indexed p o) (Function.update ring s (ring s ++ [p])) ∧
      b' = (b₁.indexed p o).reportUpdates [⟨some no,
        { type := .ADD, orderId := id, tickerId, side, price, qty := leavesQty, priority := o.priority }⟩] := by
  simp only [rest, bind_eq_ok] at h
  obtain ⟨prio, b₀, hp, p, b₁, ha, _, b₂, hadd, hm⟩ := h
  obtain ⟨rfl, rfl⟩ := getNextPriority_ok hb hp
  obtain ⟨rfl, hfree, next, hnext, rfl⟩ := allocateOrder_ok ha
  have hcur := hb.orderCursor
  obtain ⟨b₁, hpl, hA, hH, rfl⟩ := addOrder_taken (by exact hb) rfl rfl hfree hcur (hnext hcur) hadd
  refine ⟨_, b₁, _, _, rfl, rfl, hpl, hA, hH, ?_⟩
  simp only [sendMarketUpdate, modify_apply, EStateM.Result.ok.injEq] at hm
  exact hm.2.symm

/-- An order comes to rest where its slot has a level and the pool has two free blocks. -/
theorem rest_of_level (hb : HeapInv b ring) {no : Nat} {clientId : ClientId} {clientOrderId : OrderId}
    {tickerId : TickerId} {side : Side} {price : Price} {leavesQty : Qty} {id : OrderId}
    (hℓ : b.priceOrdersAtPriceHashMap (priceToIndex price) = some ℓ)
    (hkey : clientId.toNat < ME_MAX_NUM_CLIENTS ∧ clientOrderId.toNat < ME_MAX_ORDER_IDS)
    (hfree : ¬ b.orderPool.Live b.orderPool.nextFreeIndex) (hnext : ¬ b.orderPool.Live (b.orderPool.nextFreeIndex + 1))
    (hroom : b.orderPool.nextFreeIndex + 1 < b.orderPool.size) :
    ∃ b', rest no clientId clientOrderId tickerId side price leavesQty id b = .ok () b' := by
  obtain ⟨d, m, hr, hd⟩ := hb.head_of_level hℓ
  obtain ⟨t, ht⟩ : ∃ t, (ring (priceToIndex price)).getLast? = some t := by rw [hr]; exact ⟨_, List.getLast?_cons⟩
  have hback := (hb.links _).back d (by rw [hr]; rfl) t ht
  have hlevel := hb.level _ _ hℓ
  have hld := ((hb.member _ _).mp (List.mem_of_mem_head? (show d ∈ (ring _).head? by rw [hr]; rfl))).1
  have hlt := ((hb.member _ _).mp (List.mem_of_getLast? ht)).1
  have hprio : ∃ r, getNextPriority price b = .ok r b := by
    unfold getNextPriority
    rw [bind_of_ok (getOrdersAtPrice_ok.mpr ⟨rfl, rfl⟩), hℓ, if_neg (by simp), bind_of_ok (level_of_live hlevel.1),
      hd, bind_of_ok (order_of_live hld), show (b.orderPool.get d).prevOrder = some t from hback,
      bind_of_ok (order_of_live hlt)]
    exact ⟨_, rfl⟩
  obtain ⟨r, hprio⟩ := hprio
  obtain ⟨o, ho⟩ : ∃ o : MEOrder, o =
    { tickerId, clientId, clientOrderId, marketOrderId := id, side, price, qty := leavesQty, priority := r,
      prevOrder := none, nextOrder := none, addNo := some no } := ⟨_, rfl⟩
  have halloc : allocateOrder o b = .ok b.orderPool.nextFreeIndex
      (b.taken b.orderPool.nextFreeIndex o (b.orderPool.nextFreeIndex + 1)) := by
    unfold allocateOrder
    rw [MemPool.allocate_of_free o hfree hnext hroom]
    rfl
  have hkey' : o.clientId.toNat < ME_MAX_NUM_CLIENTS ∧ o.clientOrderId.toNat < ME_MAX_ORDER_IDS := by rw [ho]; exact hkey
  obtain ⟨t', d', -, -, hlink, -, -⟩ := added_old hb (o := o) (s := priceToIndex price) (by rw [ho]) (by rw [ho]) hkey'
    hfree hb.orderCursor hroom hℓ
  have hget : (b.taken b.orderPool.nextFreeIndex o (b.orderPool.nextFreeIndex + 1)).orderPool.get
      b.orderPool.nextFreeIndex = o := by simp [taken, MemPool.get_take]
  have hlive : (b.taken b.orderPool.nextFreeIndex o (b.orderPool.nextFreeIndex + 1)).orderPool.Live
      b.orderPool.nextFreeIndex := by simp [taken, MemPool.live_take]
  have hslot : (b.taken b.orderPool.nextFreeIndex o (b.orderPool.nextFreeIndex + 1)).priceOrdersAtPriceHashMap
      (priceToIndex o.price) = some ℓ := by rw [ho]; exact hℓ
  have hadd : ∃ b', addOrder b.orderPool.nextFreeIndex
      (b.taken b.orderPool.nextFreeIndex o (b.orderPool.nextFreeIndex + 1)) = .ok () b' := by
    unfold addOrder
    rw [bind_of_ok (order_of_live hlive), hget, bind_of_ok (getOrdersAtPrice_ok.mpr ⟨rfl, rfl⟩), hslot,
      bind_of_ok hlink]
    exact ⟨_, setCidOidToOrder_ok.mpr ⟨hkey', rfl⟩⟩
  obtain ⟨b', hadd⟩ := hadd
  unfold rest
  rw [bind_of_ok hprio, ← ho, bind_of_ok halloc, bind_of_ok hadd]
  exact ⟨_, rfl⟩

end TradingEcosystem.MEOrderBook
