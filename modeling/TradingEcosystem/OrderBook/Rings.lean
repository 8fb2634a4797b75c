import TradingEcosystem.OrderBook.Rules

/-! The order rings as the code promises them: the heap in order, and along each ring
rising ids and priorities of orders with something left. -/
namespace TradingEcosystem.MEOrderBook
open Program Runs LinkedRing
variable {b b' : MEOrderBook} {ring ring' : Slot → List OrderPtr} {p : OrderPtr} {n : Nat} {s : Slot}
  {guard : MEOrderBook → Request → Prop} {strict : Bool} {rs : List Request}

/-- Slots, rings and pools belong together: the levels in use are those of the slots, one
for each; the orders in use are those of the rings, which are disjoint cycles, in the slot
of their price; along a ring ids and priorities rise and quantities are positive. -/
structure RingInv (b : MEOrderBook) (ring : Slot → List OrderPtr) : Prop where
  distinct : ∀ s s' ℓ, b.priceOrdersAtPriceHashMap s = some ℓ → b.priceOrdersAtPriceHashMap s' = some ℓ → s = s'
  inUse : ∀ ℓ, b.ordersAtPricePool.Live ℓ ↔ ∃ s, b.priceOrdersAtPriceHashMap s = some ℓ
  first : ∀ s ℓ, b.priceOrdersAtPriceHashMap s = some ℓ →
    ring s ≠ [] ∧ (b.ordersAtPricePool.get ℓ).firstMeOrder = (ring s).head?
  unused : ∀ s, b.priceOrdersAtPriceHashMap s = none → ring s = []
  cycle : ∀ s, Ring False b.nextOrder b.prevOrder (ring s) ∧ (ring s).Nodup
  disjoint : ∀ s s', s ≠ s' → (ring s).Disjoint (ring s')
  complete : ∀ p, b.orderPool.Live p ↔ ∃ s, p ∈ ring s
  slot : ∀ s, ∀ p ∈ ring s, priceToIndex (b.orderPool.get p).price = s
  idsRise : ∀ s, (ring s).Pairwise fun p q => (b.orderPool.get p).marketOrderId < (b.orderPool.get q).marketOrderId
  prioritiesRise : ∀ s, (ring s).Pairwise fun p q => (b.orderPool.get p).priority < (b.orderPool.get q).priority
  positive : ∀ s, ∀ p ∈ ring s, 0 < (b.orderPool.get p).qty

/-- The orders of a book whose ids and priorities are at most `n`, in the order of arrival. -/
structure Arranged (b : MEOrderBook) (ring : Slot → List OrderPtr) (n : Nat) : Prop where
  positive : ∀ p, b.orderPool.Live p → (b.orderPool.get p).qty ≠ 0
  ids : ∀ s, (ring s).Pairwise fun p q => (b.orderPool.get p).marketOrderId < (b.orderPool.get q).marketOrderId
  priorities : ∀ s, (ring s).Pairwise fun p q => (b.orderPool.get p).priority < (b.orderPool.get q).priority
  bound : ∀ p, b.orderPool.Live p → (b.orderPool.get p).marketOrderId.toNat ≤ n ∧
    (b.orderPool.get p).priority.toNat ≤ n

/-- Orders may leave, and quantities may shrink to something positive. -/
theorem Arranged.shrink (ha : Arranged b ring n)
    (hring : ∀ s, (ring' s).Sublist (ring s))
    (hlive : ∀ p, b'.orderPool.Live p → b.orderPool.Live p ∧ (b'.orderPool.get p).qty ≠ 0)
    (hkeep : ∀ p, (b'.orderPool.get p).marketOrderId = (b.orderPool.get p).marketOrderId ∧
      (b'.orderPool.get p).priority = (b.orderPool.get p).priority) : Arranged b' ring' n where
  positive p hp := (hlive p hp).2
  ids s := ((ha.ids s).sublist (hring s)).imp fun h => by rwa [(hkeep _).1, (hkeep _).1]
  priorities s := ((ha.priorities s).sublist (hring s)).imp fun h => by rwa [(hkeep _).2, (hkeep _).2]
  bound p hp := by
    rw [(hkeep p).1, (hkeep p).2]
    exact ha.bound p (hlive p hp).1

theorem without_sublist (s : Slot) : (b.without ring p s).Sublist (ring s) := by
  unfold without
  by_cases h : s = b.slotOf p
  · subst h; rw [Function.update_self]; exact List.erase_sublist
  · rw [Function.update_of_ne h]

/-- The new last order of a ring has the next id and a priority above those before it. -/
theorem Arranged.append {o : MEOrder} (hb : HeapInv b ring) (ha : Arranged b ring n) (hadd : Added b b' p o)
    (hn : n + 1 < 2 ^ 64) (hid : o.marketOrderId.toNat = n + 1) (hprio : o.priority = b.priorityAfter (ring s))
    (hqty : o.qty ≠ 0) : Arranged b' (Function.update ring s (ring s ++ [p])) (n + 1) := by
  have hring : ∀ t, ∀ q ∈ ring t, b.orderPool.Live q := fun t q hq => ((hb.member t q).mp hq).1
  have hold : ∀ {q}, b.orderPool.Live q → (b'.orderPool.get q).qty = (b.orderPool.get q).qty ∧
      (b'.orderPool.get q).marketOrderId = (b.orderPool.get q).marketOrderId ∧
      (b'.orderPool.get q).priority = (b.orderPool.get q).priority := fun hq =>
    ⟨view_of_content _ (hadd.content _ (hadd.ne hq)), view_of_content _ (hadd.content _ (hadd.ne hq)),
      view_of_content _ (hadd.content _ (hadd.ne hq))⟩
  -- the last order of the ring has its highest priority
  have hbelow : o.priority.toNat ≤ n + 1 ∧ ∀ q ∈ ring s, (b.orderPool.get q).priority < o.priority := by
    rcases (ring s).eq_nil_or_concat' with he | ⟨l, t, he⟩
    · rw [hprio, he]
      simp [priorityAfter]
    · have hlast : o.priority = (b.orderPool.get t).priority + 1 := by rw [hprio, he, priorityAfter]; simp
      have hbt := (ha.bound t (hring s t (by simp [he]))).2
      have hnat : o.priority.toNat = (b.orderPool.get t).priority.toNat + 1 := by
        rw [hlast, UInt64.toNat_add, Nat.mod_eq_of_lt]
        · rfl
        · exact Nat.lt_of_le_of_lt (Nat.add_le_add_right hbt 1) hn
      refine ⟨by omega, fun q hq => ?_⟩
      rw [UInt64.lt_iff_toNat_lt, hnat, Nat.lt_succ_iff]
      have hp := ha.priorities s
      rw [he] at hp hq
      rcases List.mem_append.mp hq with hq | hq
      · exact (UInt64.lt_iff_toNat_lt.mp ((List.pairwise_append.mp hp).2.2 q hq t (by simp))).le
      · rw [List.mem_singleton.mp hq]
  refine ⟨fun q hq => ?_, fun t => ?_, fun t => ?_, fun q hq => ?_⟩
  · rcases (hadd.live_iff q).mp hq with rfl | hq
    · rw [hadd.view MEOrder.qty]; exact hqty
    · rw [(hold hq).1]; exact ha.positive q hq
  · have hpair : (ring t).Pairwise fun p q =>
        (b'.orderPool.get p).marketOrderId < (b'.orderPool.get q).marketOrderId :=
      (ha.ids t).imp_of_mem fun hx hy h => by rwa [(hold (hring t _ hx)).2.1, (hold (hring t _ hy)).2.1]
    by_cases ht : t = s
    · subst ht
      rw [Function.update_self, List.pairwise_append]
      refine ⟨hpair, by simp, fun q hq r hr => ?_⟩
      rw [List.mem_singleton.mp hr, (hold (hring t q hq)).2.1, hadd.view MEOrder.marketOrderId,
        UInt64.lt_iff_toNat_lt, hid, Nat.lt_succ_iff]
      exact (ha.bound q (hring t q hq)).1
    · rw [Function.update_of_ne ht]; exact hpair
  · have hpair : (ring t).Pairwise fun p q => (b'.orderPool.get p).priority < (b'.orderPool.get q).priority :=
      (ha.priorities t).imp_of_mem fun hx hy h => by rwa [(hold (hring t _ hx)).2.2, (hold (hring t _ hy)).2.2]
    by_cases ht : t = s
    · subst ht
      rw [Function.update_self, List.pairwise_append]
      refine ⟨hpair, by simp, fun q hq r hr => ?_⟩
      rw [List.mem_singleton.mp hr, (hold (hring t q hq)).2.2, hadd.view MEOrder.priority]
      exact hbelow.2 q hq
    · rw [Function.update_of_ne ht]; exact hpair
  · rcases (hadd.live_iff q).mp hq with rfl | hq
    · rw [hadd.view MEOrder.marketOrderId, hadd.view MEOrder.priority, hid]
      exact ⟨le_rfl, hbelow.1⟩
    · rw [(hold hq).2.1, (hold hq).2.2]
      have := ha.bound q hq
      omega

/-- Between calls the drawn ids bound the orders; while an order is matched, its own id is
the next one. -/
def Arriving (b : MEOrderBook) (ring : Slot → List OrderPtr) : Option (Incoming × Qty) → Prop
  | none => b.nextMarketOrderId = UInt64.ofNat (b.issued.length + 1) ∧ Arranged b ring b.issued.length
  | some (x, _) => b.nextMarketOrderId = UInt64.ofNat (b.issued.length + 1) ∧ b.issued.length = x.no + 1 ∧
      x.no + 1 < 2 ^ 64 ∧ x.id.toNat = x.no + 1 ∧ Arranged b ring x.no

theorem arriving_fresh (strict : Bool) : Arriving (fresh strict) (fun _ => []) none :=
  ⟨rfl, by simp [fresh, MemPool.Live, MemPool.ofSize], by simp, by simp, by simp [fresh, MemPool.Live, MemPool.ofSize]⟩

theorem keeps_arriving : Keeps (fun b _ => b.issued.length + 1 < 2 ^ 64) Arriving where
  accept := by
    rintro b ring clientId clientOrderId tickerId side price qty x hb ⟨hnext, ha⟩ hg rfl
    refine ⟨?_, by simp [accepted, incoming], hg, ?_, ?_⟩
    · simp only [accepted, reportResponses_nextMarketOrderId, reportResponses_issued, hnext]
      rw [List.length_append, List.length_singleton, UInt64.ofNat_add (_ + 1)]
      rfl
    · rw [show (b.incoming clientId clientOrderId tickerId side price).id = b.nextMarketOrderId from rfl, hnext]
      exact UInt64.toNat_ofNat_of_lt hg
    · exact ha.shrink (fun _ => .refl _) (fun p hp => ⟨hp, ha.positive p hp⟩) fun p => ⟨rfl, rfl⟩
  fill := by
    rintro b ring x leaves p hb ⟨hnext, hlen, hlt, hid, ha⟩ - ht hq
    refine ⟨hnext, hlen, hlt, hid, ha.shrink (fun _ => .refl _) (fun q hl => ?_) fun q => ?_⟩
    · rw [live_filled] at hl
      refine ⟨hl, ?_⟩
      rw [get_filled]
      split_ifs
      · exact hq
      · exact ha.positive q hl
    · exact ⟨view_filled x q MEOrder.marketOrderId, view_filled x q MEOrder.priority⟩
  fillAll := by
    rintro b ring x leaves p b' hb ⟨hnext, hlen, hlt, hid, ha⟩ - ht hq - hr hb'
    have hj := hr.journal
    simp only [journal, Prod.mk.injEq, filled_nextMarketOrderId, filled_issued] at hj
    refine ⟨by rw [hj.2.2.2.1, hj.2.2.1]; exact hnext, by rw [hj.2.2.1]; exact hlen, hlt, hid,
      ha.shrink without_sublist (fun q hl => ?_) fun q => ?_⟩
    · obtain ⟨hqp, hl⟩ := (hr.live_iff q).mp hl
      rw [live_filled] at hl
      refine ⟨hl, ?_⟩
      rw [view_of_content MEOrder.qty (hr.content q), get_filled, if_neg hqp]
      exact ha.positive q hl
    · rw [view_of_content MEOrder.marketOrderId (hr.content q), view_of_content MEOrder.priority (hr.content q)]
      exact ⟨view_filled x q MEOrder.marketOrderId, view_filled x q MEOrder.priority⟩
  done := by
    rintro b ring x hb ⟨hnext, hlen, hlt, hid, ha⟩
    refine ⟨hnext, ha.positive, ha.ids, ha.priorities, fun p hp => ?_⟩
    have := ha.bound p hp
    omega
  rest := by
    rintro b ring x leaves p b₁ s o hb ⟨hnext, hlen, hlt, hid, ha⟩ hne - - rfl - hadd -
    have hj := hadd.journal
    simp only [journal, Prod.mk.injEq] at hj
    have hA := ha.append hb hadd hlt hid rfl hne
    rw [← hlen, ← hj.2.2.1] at hA
    refine ⟨?_, hA.positive, hA.ids, hA.priorities, hA.bound⟩
    rw [reportUpdates_nextMarketOrderId, reportUpdates_issued, hj.2.2.2.1, hj.2.2.1]
    exact hnext
  reject := by
    rintro b ring clientId orderId tickerId hb ⟨hnext, ha⟩ -
    exact ⟨hnext, ha.positive, ha.ids, ha.priorities, ha.bound⟩
  cancel := by
    rintro b ring clientId orderId tickerId p b₁ hb ⟨hnext, ha⟩ - - - hr hb₁
    have hj := hr.journal
    simp only [journal, Prod.mk.injEq] at hj
    have hA : Arranged b₁ (b.without ring p) b.issued.length :=
      ha.shrink without_sublist (fun q hl => by
        have hl := ((hr.live_iff q).mp hl).2
        exact ⟨hl, by rw [view_of_content MEOrder.qty (hr.content q)]; exact ha.positive q hl⟩)
        fun q => ⟨view_of_content MEOrder.marketOrderId (hr.content q), view_of_content MEOrder.priority (hr.content q)⟩
    rw [← hj.2.2.1] at hA
    refine ⟨?_, hA.positive, hA.ids, hA.priorities, hA.bound⟩
    simp only [canceled, reportResponses_nextMarketOrderId, reportUpdates_nextMarketOrderId,
      reportResponses_issued, reportUpdates_issued, hj.2.2.2.1, hj.2.2.1]
    exact hnext

/-- After every completed run of fewer than 2^64 requests, whether or not runs end at a
freed block, slots, rings and pools belong together. -/
theorem run_rings (h : Reaches call (fun _ _ => True) (fresh strict) rs b) (hlen : rs.length < 2 ^ 64) :
    ∃ ring, RingInv b ring := by
  have hrun : Reaches call (fun b _ => b.issued.length + 1 < 2 ^ 64) (fresh strict) rs b :=
    (run_unwrapped h hlen).mono fun _ _ hg => hg.2
  obtain ⟨ring, hb, -, ha⟩ := keeps_arriving.run (arriving_fresh strict) hrun
  refine ⟨ring, fun s s' ℓ h h' => hb.slot_inj h h', fun ℓ => ⟨fun hl => ⟨_, hb.home ℓ hl⟩, ?_⟩, fun s ℓ h => ?_,
    fun s h => (hb.empty s).mp h, fun s => ⟨hb.links s, hb.nodup s⟩, fun s s' hne => ?_, fun p => ?_,
    fun s p hp => ((hb.member s p).mp hp).2, ha.ids, ha.priorities, fun s p hp => ?_⟩
  · rintro ⟨s, hs⟩
    exact (hb.level s ℓ hs).1
  · obtain ⟨p, m, hr, -⟩ := hb.head_of_level h
    exact ⟨by rw [hr]; simp, (hb.level s ℓ h).2.1⟩
  · intro p hp hp'
    exact hne (((hb.member s p).mp hp).2.symm.trans ((hb.member s' p).mp hp').2)
  · exact ⟨fun hl => ⟨_, hb.mem_slotOf hl⟩, fun ⟨s, hp⟩ => ((hb.member s p).mp hp).1⟩
  · have hq := ha.positive p ((hb.member s p).mp hp).1
    exact UInt32.pos_iff_ne_zero.mpr hq

/-- Two sells and a buy whose prices share a slot, one of them filled in part and one cancelled. -/
def sharedSlot : List Request :=
  [.add 0 0 0 .SELL 300 5, .add 1 1 0 .SELL 44 7, .add 2 2 0 .BUY 300 3, .cancel 1 1 0]

theorem run_rings_sharedSlot :
    ∃ b, Reaches call (fun _ _ => True) (fresh true) sharedSlot b ∧ ∃ ring, RingInv b ring := by
  obtain ⟨b, hrun, -⟩ := exists_run true sharedSlot (fun _ => True) (by decide +kernel)
  exact ⟨b, hrun, run_rings hrun (by decide)⟩

end TradingEcosystem.MEOrderBook
