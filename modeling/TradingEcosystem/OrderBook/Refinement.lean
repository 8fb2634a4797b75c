import TradingEcosystem.OrderBook.Market
import TradingEcosystem.OrderBook.Tidy

/-! The book does what the market does, as long as remainders share a slot with orders of their own
side and price only: the same messages in the same order, the same resting orders, the same index. -/
namespace TradingEcosystem.MEOrderBook
open Program Runs PriceTime
variable {b b' : MEOrderBook} {ring : Slot → List OrderPtr} {l : List LevelPtr} {ps : List OrderPtr} {m : Market} {n : Nat}
  {p q : OrderPtr} {s : Slot} {x : Incoming} {leaves leaves' qty : Qty} {u : Unit} {r : Request} {rs : List Request} {strict : Bool}

/-- `ps` lists the orders in use as they came, all of them built by an `add` before the one with
number `n`; the market holds their contents and has sent what the book has sent. -/
structure Mirrors (b : MEOrderBook) (ring : Slot → List OrderPtr) (ps : List OrderPtr) (m : Market) (n : Nat) : Prop where
  orders : m.orders = ps.map b.content
  live : ∀ p, p ∈ ps ↔ b.orderPool.Live p
  stamped : ∀ p ∈ ps, ∃ i < n, (b.orderPool.get p).addNo = some i
  arrival : ps.Pairwise fun p q => (b.content p).arrival < (b.content q).arrival
  rings : ∀ s, ring s = ps.filter (b.slotOf · = s)
  index : ∀ c k, m.index c k = (b.cidOidToOrder c k).bind fun p => (b.orderPool.get p).addNo
  adds : b.issued.length = m.adds
  next : b.nextMarketOrderId = UInt64.ofNat (m.adds + 1)
  responses : b.clientResponses = m.responses
  updates : b.marketUpdates = m.updates

theorem mirrors_fresh (strict : Bool) : Mirrors (fresh strict) (fun _ => []) [] {} 0 where
  orders := rfl
  live p := by simp [fresh, MemPool.Live, MemPool.ofSize]
  stamped := by simp
  arrival := .nil
  rings _ := rfl
  index _ _ := rfl
  adds := rfl
  next := rfl
  responses := rfl
  updates := rfl

theorem Mirrors.nodup (hm : Mirrors b ring ps m n) : ps.Nodup :=
  hm.arrival.imp fun h e => absurd h (by rw [e]; exact lt_irrefl _)

/-- No two resting orders were built by one `add`. -/
theorem Mirrors.addNo_inj (hm : Mirrors b ring ps m n) (hp : p ∈ ps) (hq : q ∈ ps) :
    (b.orderPool.get p).addNo = (b.orderPool.get q).addNo ↔ p = q := by
  refine ⟨fun e => ?_, fun e => by rw [e]⟩
  by_contra hne
  have hsymm : Std.Symm fun p q => (b.content p).arrival ≠ (b.content q).arrival := ⟨fun _ _ => Ne.symm⟩
  have hpq := List.Pairwise.forall (hm.arrival.imp fun h => h.ne : ps.Pairwise fun p q => (b.content p).arrival ≠ (b.content q).arrival)
    hp hq hne
  exact hpq (by simp only [MEOrder.arrival, content, e])

/-- The market finds a resting order by its number. -/
private theorem Mirrors.find (hm : Mirrors b ring ps m n) (hp : p ∈ ps) {i : Nat} (hi : (b.orderPool.get p).addNo = some i) :
    m.orders.find? (·.addNo = some i) = some (b.content p) := by
  rw [hm.orders]
  cases hf : (ps.map b.content).find? (·.addNo = some i) with
  | none => exact absurd (decide_eq_true hi) (List.find?_eq_none.mp hf (b.content p) (List.mem_map_of_mem hp))
  | some o =>
    obtain ⟨q, hq, rfl⟩ := List.mem_map.mp (List.mem_of_find?_eq_some hf)
    have hno : (b.content q).addNo = some i := by simpa using List.find?_some hf
    rw [(hm.addNo_inj hq hp).mp (hno.trans hi.symm)]

/-! ## The line -/

/-- Along the walk from the best level orders stand in price-time priority. -/
private theorem pairwise_walk (hb : HeapInv b ring) (ht : Tidy (fun _ => True) b l) (hm : Mirrors b ring ps m n) :
    (b.walk b.asksAtPrice).Pairwise fun p q => PriceTime.Ahead MEOrder.price MEOrder.arrival (b.content p) (b.content q) := by
  have hprice : ∀ ℓ ∈ l, ∀ p ∈ ring (priceToIndex (b.levelPrice ℓ)), (b.content p).price = b.levelPrice ℓ := fun ℓ hℓ p hp => by
    obtain ⟨hlive, hs⟩ := (hb.member _ p).mp hp
    exact (ht.pure p ℓ hlive (by rw [hs]; exact hb.home ℓ (ht.live ℓ hℓ))).2 trivial
  rw [walk_asks hb ht.toLevels, List.pairwise_flatMap]
  refine ⟨fun ℓ hℓ => ?_, ht.asks.rising.imp_of_mem fun hℓ hℓ' hlt p hp q hq => .inl ?_⟩
  · have harrival : (ring (priceToIndex (b.levelPrice ℓ))).Pairwise fun p q => (b.content p).arrival < (b.content q).arrival := by
      rw [hm.rings]
      exact hm.arrival.filter _
    exact harrival.imp_of_mem fun hp hq hlt => .inr ⟨(hprice ℓ hℓ _ hp).trans (hprice ℓ hℓ _ hq).symm, hlt⟩
  · rw [hprice _ hℓ p hp, hprice _ hℓ' q hq]
    exact hlt

private theorem perm_walk (hb : HeapInv b ring) (ht : Tidy (fun _ => True) b l) (hm : Mirrors b ring ps m n) :
    (b.walk b.asksAtPrice).Perm (ps.filter fun p => (b.content p).side = .SELL) := by
  refine (List.perm_ext_iff_of_nodup (nodup_walk hb ht.toLevels) (hm.nodup.filter _)).mpr fun p => ?_
  rw [ht.toLevels.mem_walk hb, List.mem_filter, hm.live, decide_eq_true_eq]
  refine and_congr_right fun hlive => ?_
  obtain ⟨ℓ, hℓ⟩ := hb.level_of_mem (hb.mem_slotOf hlive)
  have hside := (ht.pure p ℓ hlive hℓ).1
  constructor
  · rintro ⟨ℓ', hℓ', hs⟩
    rw [hℓ] at hs
    cases hs
    exact hside.trans (ht.asks.sides ℓ hℓ')
  · intro hsell
    exact ⟨ℓ, ht.mem ℓ (hb.level _ ℓ hℓ).1 (hside.symm.trans hsell), hℓ⟩

/-- The market serves its asks in the order of the walk along the level and order rings. -/
theorem Mirrors.queue (hb : HeapInv b ring) (ht : Tidy (fun _ => True) b l) (hm : Mirrors b ring ps m n) :
    m.queue = (b.walk b.asksAtPrice).map b.content := by
  refine line_eq ?_ (List.pairwise_map.mpr (pairwise_walk hb ht hm))
  rw [Market.asks, hm.orders, List.filter_map]
  exact (perm_walk hb ht hm).map _

/-! ## What a fill, a removal and a remainder do -/

theorem Mirrors.accepted (hm : Mirrors b ring ps m n) (x : Incoming) (qty : Qty) :
    Mirrors (b.accepted x qty) ring ps (m.accept x qty) n where
  orders := hm.orders
  live := hm.live
  stamped := hm.stamped
  arrival := hm.arrival
  rings := hm.rings
  index := hm.index
  adds := by
    simp only [MEOrderBook.accepted, reportResponses_issued, List.length_append, List.length_singleton, hm.adds]
    rfl
  next := by
    simp only [MEOrderBook.accepted, reportResponses_nextMarketOrderId, hm.next]
    rw [show (m.accept x qty).adds + 1 = m.adds + 1 + 1 from rfl, UInt64.ofNat_add (m.adds + 1)]
    rfl
  responses := by
    simp only [MEOrderBook.accepted, reportResponses_clientResponses, hm.responses]
    rfl
  updates := by
    simp only [Market.accept, Market.tell, List.append_nil]
    exact hm.updates

private theorem content_of_filled : (b.filled x p leaves).content q =
    if q = p then { b.content p with qty := (b.orderPool.get p).qty - b.fillQty p leaves } else b.content q := by
  rw [content, content, get_filled]
  split_ifs
  · rfl
  · rfl

theorem Mirrors.filled (hm : Mirrors b ring ps m n) (hp : p ∈ ps) :
    Mirrors (b.filled x p leaves) ring ps ((m.reduce (b.content p) (b.fillQty p leaves)).tell
      (Fill.responses x ⟨b.content p, b.fillQty p leaves, leaves - b.fillQty p leaves⟩)
      (Fill.updates x ⟨b.content p, b.fillQty p leaves, leaves - b.fillQty p leaves⟩)) n where
  orders := by
    simp only [Market.tell, Market.reduce, hm.orders, List.map_map]
    refine List.map_congr_left fun q hq => ?_
    rw [content_of_filled, Function.comp_apply]
    simp only [content, hm.addNo_inj hq hp]
    split_ifs with h
    · rw [h]
    · rfl
  live q := by rw [hm.live, live_filled]
  stamped q hq := by
    rw [view_filled x q MEOrder.addNo]
    exact hm.stamped q hq
  arrival := hm.arrival.imp fun {a c} h => by
    have harrival : ∀ q, ((b.filled x p leaves).content q).arrival = (b.content q).arrival := fun q =>
      congrArg (·.getD 0) (view_filled x q MEOrder.addNo)
    rwa [harrival, harrival]
  rings s := by
    rw [hm.rings]
    exact List.filter_congr fun q _ => by rw [slotOf, slotOf, view_filled x q MEOrder.price]
  index c k := by
    simp only [filled_cidOidToOrder, view_filled x _ MEOrder.addNo]
    exact hm.index c k
  adds := hm.adds
  next := hm.next
  responses := by
    rw [filled_clientResponses, hm.responses]
    rfl
  updates := by
    rw [filled_marketUpdates, hm.updates]
    rfl

theorem Mirrors.removed (hm : Mirrors b ring ps m n) (hr : Removed b b' p) :
    Mirrors b' (b.without ring p) (ps.filter (· ≠ p)) (m.remove (b.content p)) n := by
  have hp : p ∈ ps := (hm.live p).mpr hr.live
  have hj := hr.journal
  simp only [journal, Prod.mk.injEq] at hj
  have haddNo : ∀ q, (b'.orderPool.get q).addNo = (b.orderPool.get q).addNo := fun q =>
    view_of_content MEOrder.addNo (hr.content q)
  refine ⟨?_, fun q => ?_, fun q hq => ?_, ?_, fun s => ?_, fun c k => ?_, ?_, ?_, ?_, ?_⟩
  · simp only [Market.remove, Market.register, hm.orders, List.filter_map]
    rw [List.map_congr_left fun q _ => hr.content q]
    refine congrArg _ (List.filter_congr fun q hq => ?_)
    simp only [Function.comp_apply, content, ne_eq, hm.addNo_inj hq hp]
  · rw [List.mem_filter, decide_eq_true_eq, hm.live, hr.live_iff, and_comm]
  · rw [haddNo]
    exact hm.stamped q (List.mem_of_mem_filter hq)
  · refine (hm.arrival.filter _).imp fun {a c} h => ?_
    rwa [hr.content, hr.content]
  · have hslots : ∀ q, b'.slotOf q = b.slotOf q := fun q => congrArg priceToIndex (view_of_content MEOrder.price (hr.content q))
    simp only [hslots]
    rw [List.filter_comm, ← hm.rings, without]
    by_cases hs : s = b.slotOf p
    · rw [hs, Function.update_self, hm.rings, (hm.nodup.filter _).erase_eq_filter]
      exact List.filter_congr fun q _ => by simp [bne, beq_eq_decide]
    · rw [Function.update_of_ne hs, List.filter_eq_self.mpr]
      intro q hq
      rw [hm.rings, List.mem_filter, decide_eq_true_eq] at hq
      exact decide_eq_true fun e => hs (e ▸ hq.2.symm)
  · simp only [Market.remove, Market.register, hr.index, haddNo]
    split_ifs with h h' h'
    · rfl
    · exact absurd h h'
    · exact absurd h' h
    · exact hm.index c k
  · rw [hj.2.2.1]
    exact hm.adds
  · rw [hj.2.2.2.1]
    exact hm.next
  · rw [hj.1]
    exact hm.responses
  · rw [hj.2.1]
    exact hm.updates

/-- In a slot whose orders are all of one side and price, the last order is the last of that side and
price in the market. -/
private theorem Mirrors.priority (hm : Mirrors b ring ps m n) {side : Side} {price : Price}
    (hslot : ∀ p ∈ ps, b.slotOf p = priceToIndex price → (b.orderPool.get p).side = side ∧ (b.orderPool.get p).price = price) :
    b.priorityAfter (ring (priceToIndex price)) = m.priorityAt side price := by
  have hfilter : (m.orders.filter fun o => o.side = side ∧ o.price = price) = (ring (priceToIndex price)).map b.content := by
    rw [hm.orders, hm.rings, List.filter_map]
    refine congrArg _ (List.filter_congr fun p hp => decide_eq_decide.mpr ⟨fun h => ?_, hslot p hp⟩)
    exact congrArg priceToIndex h.2
  rw [Market.priorityAt, hfilter, List.getLast?_map, priorityAfter]
  cases (ring (priceToIndex price)).getLast? <;> rfl

theorem Mirrors.added {o : MEOrder} (hb : HeapInv b ring) (hm : Mirrors b ring ps m x.no) (ho : o = m.remainder x leaves)
    (hs : s = priceToIndex x.price) (hadd : Added b b' p o) :
    Mirrors b' (Function.update ring s (ring s ++ [p])) (ps ++ [p])
      ({ m with orders := m.orders ++ [o] }.register x.clientId x.clientOrderId (some x.no)) (x.no + 1) := by
  have hj := hadd.journal
  simp only [journal, Prod.mk.injEq] at hj
  have hcontent : ∀ q ∈ ps, b'.content q = b.content q := fun q hq => hadd.content q (hadd.ne ((hm.live q).mp hq))
  have hstamp : (b'.orderPool.get p).addNo = some x.no := by
    rw [hadd.view MEOrder.addNo, ho]
    rfl
  have hkeys : o.clientId = x.clientId ∧ o.clientOrderId = x.clientOrderId ∧ o.price = x.price := by
    rw [ho]
    exact ⟨rfl, rfl, rfl⟩
  refine ⟨?_, fun q => ?_, fun q hq => ?_, ?_, fun t => ?_, fun c k => ?_, ?_, ?_, ?_, ?_⟩
  · rw [List.map_append, List.map_singleton, hadd.content_self]
    exact congrArg (· ++ [o]) (hm.orders.trans (List.map_congr_left fun q hq => (hcontent q hq).symm))
  · rw [List.mem_append, List.mem_singleton, hm.live, hadd.live_iff, or_comm]
  · rcases List.mem_append.mp hq with hq | hq
    · obtain ⟨i, hi, he⟩ := hm.stamped q hq
      exact ⟨i, by omega, (view_of_content MEOrder.addNo (hcontent q hq)).trans he⟩
    · rw [List.mem_singleton.mp hq]
      exact ⟨x.no, by omega, hstamp⟩
  · refine List.pairwise_append.mpr ⟨hm.arrival.imp_of_mem fun hq hr h => ?_, List.pairwise_singleton _ _, fun q hq r hr => ?_⟩
    · rwa [hcontent _ hq, hcontent _ hr]
    · -- the numbers of earlier calls are smaller
      obtain ⟨i, hi, he⟩ := hm.stamped q hq
      rw [List.mem_singleton.mp hr, hcontent q hq]
      simp only [MEOrder.arrival, content, hstamp, he, Option.getD_some]
      exact hi
  · have hslots : ps.filter (b'.slotOf · = t) = ring t := by
      rw [hm.rings]
      exact List.filter_congr fun q hq => by rw [slotOf, view_of_content MEOrder.price (hcontent q hq)]
    have hslot : b'.slotOf p = s := by rw [slotOf, hadd.view MEOrder.price, hkeys.2.2, hs]
    rw [List.filter_append, hslots, List.filter_singleton, hslot]
    by_cases ht : t = s
    · rw [ht, Function.update_self]
      simp
    · rw [Function.update_of_ne ht]
      simp [Ne.symm ht]
  · simp only [Market.register, hadd.index, hkeys.1, hkeys.2.1]
    split_ifs with h
    · exact hstamp.symm
    · rw [hm.index]
      cases hp : b.cidOidToOrder c k with
      | none => rfl
      | some q => exact (view_of_content MEOrder.addNo (hcontent q ((hm.live q).mpr (hb.indexed c k q hp).1))).symm
  · rw [hj.2.2.1]
    exact hm.adds
  · rw [hj.2.2.2.1]
    exact hm.next
  · rw [hj.1]
    exact hm.responses
  · rw [hj.2.1]
    exact hm.updates

theorem Mirrors.mono {n' : Nat} (hm : Mirrors b ring ps m n) (hle : n ≤ n') : Mirrors b ring ps m n' :=
  { hm with
    stamped := fun p hp =>
      have ⟨i, hi, he⟩ := hm.stamped p hp
      ⟨i, hi.trans_le hle, he⟩ }

private theorem reportResponses_nil : b.reportResponses [] = b := by simp [reportResponses]

private theorem reportUpdates_nil : b.reportUpdates [] = b := by simp [reportUpdates]

/-- The same messages keep the two together. -/
theorem Mirrors.told (hm : Mirrors b ring ps m n) (responses : List (Report MEClientResponse))
    (updates : List (Report MEMarketUpdate)) :
    Mirrors ((b.reportUpdates updates).reportResponses responses) ring ps (m.tell responses updates) n where
  orders := hm.orders
  live := hm.live
  stamped := hm.stamped
  arrival := hm.arrival
  rings := hm.rings
  index := hm.index
  adds := hm.adds
  next := hm.next
  responses := congrArg (· ++ responses) hm.responses
  updates := congrArg (· ++ updates) hm.updates

theorem Mirrors.rest {o : MEOrder} (hb : HeapInv b ring) (hm : Mirrors b ring ps m x.no) (ho : o = m.remainder x leaves)
    (hs : s = priceToIndex x.price) (hadd : Added b b' p o) :
    Mirrors (b'.reportUpdates [⟨some x.no,
      { type := .ADD, orderId := x.id, tickerId := x.tickerId, side := x.side, price := x.price, qty := leaves,
        priority := o.priority }⟩]) (Function.update ring s (ring s ++ [p])) (ps ++ [p]) (m.rest x leaves) (x.no + 1) := by
  have htold := (hm.added hb ho hs hadd).told [] [⟨some x.no,
    { type := .ADD, orderId := x.id, tickerId := x.tickerId, side := x.side, price := x.price, qty := leaves,
      priority := o.priority }⟩]
  rw [reportResponses_nil] at htold
  rw [Market.rest, ← ho]
  exact htold

/-! ## The matching -/

/-- While `x` is matched, the market has still to do what makes `target` of it. -/
def Serving (target : Market × Nat) (b : MEOrderBook) (ring : Slot → List OrderPtr) : Option (Incoming × Qty) → Prop
  | none => True
  | some (x, leaves) => ∃ l ps m, Tidy (fun _ => True) b l ∧ Mirrors b ring ps m x.no ∧ m.adds = x.no + 1 ∧
      Market.serve x ((b.walk b.asksAtPrice).map b.content) leaves.toNat m = target

/-- Who can fill all of an order in one turn takes all of it. -/
private theorem fillQty_of_full (h : (b.orderPool.get p).qty - b.fillQty p leaves = 0) :
    b.fillQty p leaves = (b.orderPool.get p).qty ∧ (b.orderPool.get p).qty.toNat ≤ leaves.toNat := by
  have hmin := fillQty_toNat b p leaves
  have hrest := (sub_fillQty_toNat b p leaves).2
  rw [h, UInt32.toNat_zero] at hrest
  exact ⟨UInt32.toNat_inj.mp (by omega), by omega⟩

/-- ... and who cannot is full after it. -/
private theorem fillQty_of_open (h : (b.orderPool.get p).qty - b.fillQty p leaves ≠ 0) :
    b.fillQty p leaves = leaves ∧ leaves.toNat < (b.orderPool.get p).qty.toNat := by
  have hmin := fillQty_toNat b p leaves
  have hrest := (sub_fillQty_toNat b p leaves).2
  have hpos : ((b.orderPool.get p).qty - b.fillQty p leaves).toNat ≠ 0 := fun e => h (UInt32.toNat_inj.mp e)
  exact ⟨UInt32.toNat_inj.mp (by omega), by omega⟩

/-- A turn meets the first order of the walk. -/
private theorem walk_of_turn (hb : HeapInv b ring) (ht : Tidy (fun _ => True) b l) (hm : Mirrors b ring ps m n) {stop : Price → Bool}
    (hturn : Turn asksAtPrice stop b leaves p) : p ∈ ps ∧ ∃ tail, b.walk b.asksAtPrice = p :: tail := by
  obtain ⟨ℓ, hbest, -, hfirst⟩ := hturn.first
  obtain ⟨tail, hwalk⟩ := ht.toLevels.walk_of_best hb hbest hfirst
  have hmem := (ht.toLevels.mem_walk hb).mp (by rw [hwalk]; exact List.mem_cons_self ..)
  exact ⟨(hm.live p).mpr hmem.1, tail, hwalk⟩

/-- The turns of the matching are those of the market. -/
theorem keepsTurns_serving (target : Market × Nat) : KeepsTurns (Serving target) where
  fill := by
    rintro b ring x leaves p hb ⟨l, ps, m, ht, hm, hadds, hserve⟩ - hturn hopen
    obtain ⟨hp, tail, hwalk⟩ := walk_of_turn hb ht hm hturn
    obtain ⟨hall, hlt⟩ := fillQty_of_open hopen
    have hneed : leaves.toNat ≠ 0 := fun e => hturn.unfilled (UInt32.toNat_inj.mp e)
    have hmeets : ¬ x.price < (b.content p).price := of_decide_eq_false hturn.meets
    have htrade : m.trade x ⟨b.content p, b.fillQty p leaves, leaves - b.fillQty p leaves⟩ = _ := Market.trade_open hopen
    refine ⟨l, ps, _, tidy_filled ht x p leaves, htrade ▸ hm.filled hp, htrade ▸ hadds, ?_⟩
    have hstop : (leaves - b.fillQty p leaves).toNat = 0 := by rw [hall, UInt32.sub_self, UInt32.toNat_zero]
    rw [Market.serve_stop (.inr (.inl hstop)), hstop, hall, UInt32.sub_self, ← hserve, hwalk, List.map_cons,
      Market.serve_part hneed hmeets hlt, UInt32.ofNat_toNat]
  fillAll := by
    rintro b ring x leaves p b' hb ⟨l, ps, m, ht, hm, hadds, hserve⟩ - hturn hfull hrem hr hb'
    obtain ⟨hp, tail, hwalk⟩ := walk_of_turn hb ht hm hturn
    obtain ⟨hall, hle⟩ := fillQty_of_full hfull
    have hneed : leaves.toNat ≠ 0 := fun e => hturn.unfilled (UInt32.toNat_inj.mp e)
    have hmeets : ¬ x.price < (b.content p).price := of_decide_eq_false hturn.meets
    obtain ⟨l', ht', hsh⟩ := (tidy_filled ht x p leaves).remove (heap_filled hb x p leaves) hrem
    have hwithout : (b.filled x p leaves).without ring p = b.without ring p := by
      rw [without, without, slotOf, view_filled x p MEOrder.price]
    have hkeys : ((b.filled x p leaves).content p).addNo = (b.content p).addNo ∧
        ((b.filled x p leaves).content p).clientId = (b.content p).clientId ∧
        ((b.filled x p leaves).content p).clientOrderId = (b.content p).clientOrderId :=
      ⟨view_filled x p MEOrder.addNo, view_filled x p MEOrder.clientId, view_filled x p MEOrder.clientOrderId⟩
    have hfilled : Mirrors (b.filled x p leaves) ring ps _ _ := hm.filled hp
    have hremoved := hfilled.removed hr
    rw [hwithout, Market.remove_reduce hkeys] at hremoved
    have hleft : (leaves - b.fillQty p leaves).toNat = leaves.toNat - (b.orderPool.get p).qty.toNat := by
      rw [(sub_fillQty_toNat b p leaves).1, hall]
    have htrade : m.trade x ⟨b.content p, b.fillQty p leaves, leaves - b.fillQty p leaves⟩ = _ := Market.trade_full hfull
    refine ⟨l', _, _, ht', htrade ▸ hremoved, htrade ▸ hadds, ?_⟩
    have hwalk' : b'.walk b'.asksAtPrice = tail := by
      have herase := walk_remove (heap_filled hb x p leaves) (tidy_filled ht x p leaves).toLevels (by rw [hwithout]; exact hb')
        ht'.toLevels hsh
      rw [walk_asks (heap_filled hb x p leaves) (tidy_filled ht x p leaves).toLevels] at herase
      rw [walk_asks hb ht.toLevels] at hwalk
      exact herase.trans ((congrArg (List.erase · p) hwalk).trans (List.erase_cons_head ..))
    have hnot : p ∉ tail := (List.nodup_cons.mp (hwalk ▸ nodup_walk hb ht.toLevels)).1
    have hcontent : tail.map b'.content = tail.map b.content := List.map_congr_left fun q hq => by
      rw [hr.content, content_of_filled, if_neg fun e : q = p => hnot (e ▸ hq)]
    rw [hwalk', hcontent, ← hserve, hwalk, List.map_cons, Market.serve_all hneed hmeets hle, hall]
    rw [hall] at hleft
    rw [show (b.content p).qty = (b.orderPool.get p).qty from rfl, ← hleft, UInt32.ofNat_toNat]

/-- The matching of an accepted order is that of the market. -/
private theorem matching_mirrors (hb : HeapInv b ring) (ht : Tidy (fun _ => True) b l) (hm : Mirrors b ring ps m m.adds)
    (hno : x.no = m.adds) (h : x.matching qty (b.accepted x qty) = .ok leaves b') :
    ∃ ring' l' ps', HeapInv b' ring' ∧ Tidy (fun _ => True) b' l' ∧ Mirrors b' ring' ps' (m.matched x qty).1 x.no ∧
      (m.matched x qty).1.adds = x.no + 1 ∧ (m.matched x qty).2 = leaves.toNat := by
  have hb₁ := heap_accepted hb x qty
  have ht₁ : Tidy (fun _ => True) (b.accepted x qty) l :=
    ht.congr rfl rfl (fun _ => rfl) (fun _ => Iff.rfl) rfl (fun _ h => h) fun _ => ⟨rfl, rfl⟩
  have hm₁ : Mirrors (b.accepted x qty) ring ps (m.accept x qty) x.no := by
    rw [hno]
    exact hm.accepted x qty
  have hadds : (m.accept x qty).adds = x.no + 1 := congrArg (· + 1) hno.symm
  by_cases hside : x.side = .BUY
  · have hqueue := hm.queue hb ht
    obtain ⟨⟨ring', hb', hk⟩, hex⟩ := (keepsTurns_serving (m.matched x qty)).matching hb₁ ht.bids
      (show Serving (m.matched x qty) (b.accepted x qty) ring (some (x, qty)) from
        ⟨l, ps, _, ht₁, hm₁, hadds, by rw [Market.matched, if_pos hside, hqueue]; rfl⟩) h
    obtain ⟨l', ps', m', ht', hm', hadds', hserve⟩ := hk
    -- the loop is over, so the market has nothing left to do
    have hdone : Market.serve x ((b'.walk b'.asksAtPrice).map b'.content) leaves.toNat m' = (m', leaves.toNat) := by
      refine Market.serve_stop ?_
      rcases hex hside with h0 | hnone | ⟨ℓ, p, hbest, hfirst, hdear⟩
      · exact .inr (.inl (by rw [h0, UInt32.toNat_zero]))
      · exact .inl (by rw [hnone]; rfl)
      · obtain ⟨tail, hwalk⟩ := ht'.toLevels.walk_of_best hb' hbest hfirst
        exact .inr (.inr ⟨b'.content p, tail.map b'.content, by rw [hwalk, List.map_cons], of_decide_eq_true hdear⟩)
    rw [hdone] at hserve
    rw [← hserve]
    exact ⟨ring', l', ps', hb', ht', hm', hadds', rfl⟩
  · have hidle : x.matching qty (b.accepted x qty) = .ok qty (b.accepted x qty) := matching_idle ht.bids (.inl hside)
    rw [hidle] at h
    cases h
    rw [Market.matched, if_neg hside, Market.serve_stop (.inl rfl)]
    exact ⟨ring, l, ps, hb₁, ht₁, hm₁, hadds, rfl⟩

/-- The remainder of an order rests in the book as it does in the market. -/
private theorem rest_mirrors (hb : HeapInv b ring) (ht : Tidy (fun _ => True) b l) (hm : Mirrors b ring ps m x.no)
    (hside : x.side = .BUY ∨ x.side = .SELL)
    (hapart : ∀ o ∈ m.orders, priceToIndex o.price = priceToIndex x.price → o.side = x.side ∧ o.price = x.price)
    (h : x.rest leaves b = .ok u b') : ∃ ring' l' ps', HeapInv b' ring' ∧ Tidy (fun _ => True) b' l' ∧
      Mirrors b' ring' ps' (m.rest x leaves) (x.no + 1) := by
  obtain ⟨p, b₁, s, o, hs, ho, hpl, hadd, hH, rfl⟩ := rest_ok hb h
  have hslot : ∀ p ∈ ps, b.slotOf p = priceToIndex x.price → (b.orderPool.get p).side = x.side ∧ (b.orderPool.get p).price = x.price :=
    fun p hp hs => hapart (b.content p) (by rw [hm.orders]; exact List.mem_map_of_mem hp) hs
  have ho' : o = m.remainder x leaves := by
    rw [ho, remainder, Market.remainder, hs, hm.priority hslot]
  have hkeys : o.side = x.side ∧ o.price = x.price := by
    rw [ho']
    exact ⟨rfl, rfl⟩
  have hfit : ∀ ℓ, b.priceOrdersAtPriceHashMap s = some ℓ → b.levelSide ℓ = o.side ∧ (True → b.levelPrice ℓ = o.price) := by
    intro ℓ hℓ
    -- the level of the slot is that of its first order
    obtain ⟨q, tail, hring, -⟩ := hb.head_of_level hℓ
    obtain ⟨hlive, hqs⟩ := (hb.member s q).mp (by rw [hring]; exact List.mem_cons_self ..)
    obtain ⟨hq, hq'⟩ := ht.pure q ℓ hlive (by rw [hqs]; exact hℓ)
    obtain ⟨hside, hprice⟩ := hslot q ((hm.live q).mpr hlive) (hqs.trans hs)
    rw [hkeys.1, hkeys.2]
    exact ⟨hq.symm.trans hside, fun _ => (hq' trivial).symm.trans hprice⟩
  obtain ⟨l', ht'⟩ := ht.rest hb (by rw [hkeys.1]; exact hside) (by rw [hkeys.2]; exact hs) hfit hpl hadd
  refine ⟨_, l', _, hH.of_eq (by simp) (by simp) (by simp) (by simp), ?_, hm.rest hb ho' hs hadd⟩
  exact ht'.congr rfl rfl (fun _ => rfl) (fun _ => Iff.rfl) rfl (fun _ h => h) fun _ => ⟨rfl, rfl⟩

/-- One call that returns does what one step of the market does. -/
theorem call_mirrors (hb : HeapInv b ring) (ht : Tidy (fun _ => True) b l) (hm : Mirrors b ring ps m m.adds) (hr : m.Apart r)
    (h : call r b = .ok u b') : ∃ ring' l' ps', HeapInv b' ring' ∧ Tidy (fun _ => True) b' l' ∧
      Mirrors b' ring' ps' (m.step r) (m.step r).adds := by
  cases r with
  | add clientId clientOrderId tickerId side price qty =>
    obtain ⟨x, hx⟩ : ∃ x, x = b.incoming clientId clientOrderId tickerId side price := ⟨_, rfl⟩
    have hx' : x = m.incoming clientId clientOrderId tickerId side price := by
      rw [hx, incoming, Market.incoming, hm.adds, hm.next]
    obtain ⟨b₁, leaves, hmatch, hend⟩ := add_ok hx h
    obtain ⟨ring₁, l₁, ps₁, hb₁, ht₁, hm₁, hadds, hleaves⟩ := matching_mirrors hb ht hm (by rw [hx']; rfl) hmatch
    rw [Market.step, ← hx', Market.add]
    rcases hend with ⟨rfl, rfl⟩ | ⟨hne, hrest⟩
    · rw [if_pos (show (m.matched x qty).2 = 0 from hleaves), hadds]
      exact ⟨ring₁, l₁, ps₁, hb₁, ht₁, hm₁.mono (Nat.le_succ _)⟩
    · have hopen : (m.matched x qty).2 ≠ 0 := by
        rw [hleaves]
        exact fun e => hne (UInt32.toNat_inj.mp e)
      rw [Market.Apart, ← hx'] at hr
      obtain ⟨hside, hapart⟩ := hr.resolve_left hopen
      have hxs : x.side = side ∧ x.price = price := by
        rw [hx]
        exact ⟨rfl, rfl⟩
      rw [← hxs.1, ← hxs.2] at hapart
      rw [← hxs.1] at hside
      rw [if_neg hopen, hleaves, UInt32.ofNat_toNat, show ((m.matched x qty).1.rest x leaves).adds = x.no + 1 from hadds]
      exact rest_mirrors hb₁ ht₁ hm₁ hside hapart hrest
  | cancel clientId orderId tickerId =>
    rw [Market.step, Market.cancel]
    rcases cancel_ok h with ⟨hnone, rfl⟩ | ⟨-, -, p, b₁, hp, hrem, rfl⟩
    · have hindex : m.index clientId orderId = none := by
        rw [hm.index]
        cases hp : b.cidOidToOrder clientId orderId with
        | none => rfl
        | some p =>
          obtain ⟨hlive, hc, -⟩ := hb.indexed _ _ p hp
          exact absurd (hc ▸ (hb.keyed p hlive).1) (hnone.resolve_right (by rw [hp]; simp))
      rw [hindex]
      refine ⟨ring, l, ps, hb.of_eq (by simp [rejected]) (by simp [rejected]) (by simp [rejected]) (by simp [rejected]), ?_, ?_⟩
      · exact ht.congr rfl rfl (fun _ => rfl) (fun _ => Iff.rfl) rfl (fun _ h => h) fun _ => ⟨rfl, rfl⟩
      · have htold := hm.told [⟨none,
          { type := .CANCEL_REJECTED, clientId, tickerId, clientOrderId := orderId, marketOrderId := orderIdInvalid,
            side := .INVALID, price := priceInvalid, execQty := qtyInvalid, leavesQty := qtyInvalid }⟩] []
        rw [reportUpdates_nil] at htold
        exact htold
    · obtain ⟨hrem', hh⟩ := heap_removeOrder hb hrem
      obtain ⟨l', ht', -⟩ := ht.remove hb hrem
      obtain ⟨i, -, hi⟩ := hm.stamped p ((hm.live p).mpr hrem'.live)
      have hfind : ((m.index clientId orderId).bind fun no => m.orders.find? (·.addNo = some no)) = some (b.content p) := by
        rw [hm.index, hp, Option.bind_some, hi, Option.bind_some]
        exact hm.find ((hm.live p).mpr hrem'.live) hi
      rw [hfind]
      refine ⟨_, l', _, hh.of_eq (by simp [canceled]) (by simp [canceled]) (by simp [canceled]) (by simp [canceled]), ?_,
        (hm.removed hrem').told _ _⟩
      exact ht'.congr rfl rfl (fun _ => rfl) (fun _ => Iff.rfl) rfl (fun _ h => h) fun _ => ⟨rfl, rfl⟩

/-! ## Runs -/

/-- What the book and the market have in common, seen from outside: the messages they sent, the
resting orders, and what the index finds. -/
structure Refines (b : MEOrderBook) (m : Market) : Prop where
  responses : b.clientResponses = m.responses
  updates : b.marketUpdates = m.updates
  orders : ∃ ps : List OrderPtr, ps.Nodup ∧ (∀ p, p ∈ ps ↔ b.Resting p) ∧ m.orders = ps.map b.content
  index : ∀ c k, m.index c k = (b.cidOidToOrder c k).bind fun p => (b.orderPool.get p).addNo

theorem Mirrors.refines (h : Mirrors b ring ps m n) (hb : HeapInv b ring) : b.Refines m :=
  ⟨h.responses, h.updates, ⟨ps, h.nodup, fun p => (h.live p).trans hb.resting_iff.symm, h.orders⟩, h.index⟩

theorem run_mirrors (h : Reaches call (fun _ _ => True) (fresh strict) rs b) (hrs : Market.AllApart {} rs) :
    ∃ ring l ps, HeapInv b ring ∧ Tidy (fun _ => True) b l ∧ Mirrors b ring ps (Market.after rs) (Market.after rs).adds := by
  refine h.invariant (I := fun rs b => Market.AllApart {} rs → ∃ ring l ps, HeapInv b ring ∧ Tidy (fun _ => True) b l ∧
      Mirrors b ring ps (Market.after rs) (Market.after rs).adds) (fun _ => ?_) (fun rs b r b' ih _ hcall hrs => ?_) hrs
  · exact ⟨_, [], [], heap_fresh strict, tidy_fresh _ strict, mirrors_fresh strict⟩
  · obtain ⟨hbefore, hr⟩ := Market.allApart_append.mp hrs
    obtain ⟨ring, l, ps, hb, ht, hm⟩ := ih hbefore
    rw [Market.after, List.foldl_append]
    exact call_mirrors hb ht hm hr hcall

/-- A book that returns from every request does what the market does, as long as the market says that
remainders are to buy or to sell and that those which share a slot with other orders have their side and price. -/
theorem run_refines (h : Reaches call (fun _ _ => True) (fresh strict) rs b) (hrs : Market.AllApart {} rs) :
    b.Refines (Market.after rs) := by
  obtain ⟨ring, l, ps, hb, -, hm⟩ := run_mirrors h hrs
  exact hm.refines hb

/-- A sweep over two levels, a reused key, a remainder that rests to buy and two cancels. -/
def marketDay : List Request :=
  [.add 0 0 0 .SELL 101 5, .add 1 1 0 .SELL 100 7, .add 2 2 0 .SELL 100 3, .add 3 3 0 .BUY 101 9, .add 0 0 0 .SELL 102 4,
    .cancel 2 2 0, .add 3 4 0 .BUY 99 6, .cancel 9 9 0]

theorem run_refines_marketDay : ∃ b, Reaches call (fun _ _ => True) (fresh true) marketDay b ∧
    b.Refines (Market.after marketDay) := by
  obtain ⟨b, hrun, -⟩ := exists_run true marketDay (fun _ => True) (by decide +kernel)
  exact ⟨b, hrun, run_refines hrun (by decide +kernel)⟩

end TradingEcosystem.MEOrderBook
