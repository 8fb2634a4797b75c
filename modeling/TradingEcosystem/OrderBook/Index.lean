import TradingEcosystem.OrderBook.Rules

/-! The index `cid_oid_to_order_` against the resting orders: clients choose the keys, and
`addOrder` overwrites an entry without a look at what it holds. -/
namespace TradingEcosystem.MEOrderBook
open Program Runs
variable {b b' : MEOrderBook} {ring : Slot → List OrderPtr} {p : OrderPtr} {u : Unit} {r : Request} {strict : Bool}
  {rs : List Request} {x : Incoming} {leaves : Qty}

/-- The entry of the index for the ids of an order. -/
def entry (b : MEOrderBook) (p : OrderPtr) : Option OrderPtr :=
  b.cidOidToOrder (b.orderPool.get p).clientId (b.orderPool.get p).clientOrderId

/-- Every resting order is found under its own ids, and every entry is a resting order
with those ids. -/
structure Cancelable (b : MEOrderBook) : Prop where
  found : ∀ p, b.Resting p → b.entry p = some p
  held : ∀ c k p, b.cidOidToOrder c k = some p → b.Resting p ∧
    (b.orderPool.get p).clientId = c ∧ (b.orderPool.get p).clientOrderId = k

/-- The request is an `add` of which something is left over after the matching, when an
order with the same client id and client order id is resting. -/
def Collides (b : MEOrderBook) (r : Request) : Prop :=
  ∃ clientId clientOrderId tickerId side price qty leaves b₁ q,
    r = .add clientId clientOrderId tickerId side price qty ∧
    checkForMatch b.issued.length clientId clientOrderId tickerId side price qty b.nextMarketOrderId.toUInt32
      (b.accepted (b.incoming clientId clientOrderId tickerId side price) qty) = .ok leaves b₁ ∧
    leaves ≠ 0 ∧ b₁.Resting q ∧
    (b₁.orderPool.get q).clientId = clientId ∧ (b₁.orderPool.get q).clientOrderId = clientOrderId

/-- The half of `Cancelable` that can fail. -/
def Found (b : MEOrderBook) : Prop := ∀ p, b.orderPool.Live p → b.entry p = some p

theorem cancelable_iff (hb : HeapInv b ring) : b.Cancelable ↔ b.Found := by
  constructor
  · intro h p hp
    exact h.found p (hb.resting_iff.mpr hp)
  · intro h
    refine ⟨fun p hp => h p (hb.resting_iff.mp hp), fun c k p hp => ?_⟩
    rw [hb.resting_iff]
    exact hb.indexed c k p hp

/-- A removal clears the entry of the removed order, and that of no other order. -/
theorem found_removed (hf : b.Found) (hr : Removed b b' p) : b'.Found := by
  intro q hq
  obtain ⟨hqp, hl⟩ := (hr.live_iff q).mp hq
  have hk : b'.entry q = if (b.orderPool.get q).clientId = (b.orderPool.get p).clientId ∧
      (b.orderPool.get q).clientOrderId = (b.orderPool.get p).clientOrderId then none else b.entry q := by
    rw [entry, view_of_content MEOrder.clientId (hr.content q),
      view_of_content MEOrder.clientOrderId (hr.content q), hr.index]
    rfl
  rw [hk, if_neg, hf q hl]
  rintro ⟨hc, ho⟩
  have hpq : b.entry q = b.entry p := by rw [entry, entry, hc, ho]
  rw [hf q hl, hf p hr.live] at hpq
  exact hqp (Option.some.inj hpq)

private theorem found_filled (hf : b.Found) : (b.filled x p leaves).Found := by
  intro q hq
  rw [live_filled] at hq
  rw [entry, view_filled x q MEOrder.clientId, view_filled x q MEOrder.clientOrderId, filled_cidOidToOrder]
  exact hf q hq

private theorem keepsTurns_found : KeepsTurns fun b _ _ => b.Found where
  fill _ hk _ _ _ := found_filled hk
  fillAll _ hk _ _ _ _ hr _ := found_removed (found_filled hk) hr

/-- After a remainder came to rest every order is found if no order rested under its ids. -/
private theorem found_added {o : MEOrder} (hf : b.Found) (ha : Added b b' p o) : b'.Found ↔
    ∀ q, b.orderPool.Live q → ¬ ((b.orderPool.get q).clientId = o.clientId ∧
      (b.orderPool.get q).clientOrderId = o.clientOrderId) := by
  have hold : ∀ q, b.orderPool.Live q → b'.entry q = if (b.orderPool.get q).clientId = o.clientId ∧
      (b.orderPool.get q).clientOrderId = o.clientOrderId then some p else b.entry q := by
    intro q hq
    rw [entry, view_of_content MEOrder.clientId (ha.content q (ha.ne hq)),
      view_of_content MEOrder.clientOrderId (ha.content q (ha.ne hq)), ha.index]
    rfl
  constructor
  · intro h q hq hk
    have he := h q ((ha.live_iff q).mpr (.inr hq))
    rw [hold q hq, if_pos hk] at he
    exact ha.ne hq (Option.some.inj he).symm
  · intro h q hq
    rcases (ha.live_iff q).mp hq with rfl | hq
    · rw [entry, ha.view MEOrder.clientId, ha.view MEOrder.clientOrderId, ha.index, if_pos ⟨rfl, rfl⟩]
    · rw [hold q hq, if_neg (h q hq), hf q hq]

/-- One call keeps the bijection if and only if no remainder comes to rest under taken ids. -/
theorem cancelable_call (hb : HeapInv b ring) (hbids : b.bidsAtPrice = none) (hc : b.Cancelable)
    (h : call r b = .ok u b') : b'.Cancelable ↔ ¬ b.Collides r := by
  have hf := (cancelable_iff hb).mp hc
  cases r with
  | add clientId clientOrderId tickerId side price qty =>
    obtain ⟨x, hx⟩ : ∃ x, x = b.incoming clientId clientOrderId tickerId side price := ⟨_, rfl⟩
    obtain ⟨b₁, leaves, hm, hend⟩ := add_ok hx h
    obtain ⟨⟨ring₁, hb₁, hf₁⟩, -⟩ := keepsTurns_found.matching (heap_accepted hb x qty) hbids hf hm
    -- the matching is a function of the book, so the run of it in `Collides` is this one
    have hcol : b.Collides (.add clientId clientOrderId tickerId side price qty) ↔ leaves ≠ 0 ∧
        ∃ q, b₁.orderPool.Live q ∧ (b₁.orderPool.get q).clientId = clientId ∧
          (b₁.orderPool.get q).clientOrderId = clientOrderId := by
      constructor
      · rintro ⟨_, _, _, _, _, _, l, b₂, q, he, hm', hne, hq, hk⟩
        cases he
        rw [← hx] at hm'
        have heq : Incoming.matching x qty (b.accepted x qty) = .ok l b₂ := by rw [hx] at hm' ⊢; exact hm'
        rw [hm] at heq
        cases heq
        exact ⟨hne, q, hb₁.resting_iff.mp hq, hk⟩
      · rintro ⟨hne, q, hq, hk⟩
        exact ⟨_, _, _, _, _, _, leaves, b₁, q, rfl, by rw [hx] at hm; exact hm, hne, hb₁.resting_iff.mpr hq, hk⟩
    rw [hcol]
    rcases hend with ⟨rfl, rfl⟩ | ⟨hne, hrest⟩
    · rw [cancelable_iff hb₁]
      exact iff_of_true hf₁ fun e => e.1 rfl
    · obtain ⟨p, b₂, s, o, -, ho, -, hA, hH, rfl⟩ := rest_ok hb₁ hrest
      have hH' : HeapInv ((b₂.indexed p o).reportUpdates [⟨some x.no,
          { type := .ADD, orderId := x.id, tickerId := x.tickerId, side := x.side, price := x.price, qty := leaves,
            priority := o.priority }⟩]) _ := hH.of_eq (by simp) (by simp) (by simp) (by simp)
      rw [cancelable_iff hH']
      refine (found_added hf₁ hA).trans ?_
      have hkey : o.clientId = clientId ∧ o.clientOrderId = clientOrderId := by rw [ho, hx]; exact ⟨rfl, rfl⟩
      rw [hkey.1, hkey.2]
      exact ⟨fun h ⟨_, q, hq, hk⟩ => h q hq hk, fun h q hq hk => h ⟨hne, q, hq, hk⟩⟩
  | cancel clientId orderId tickerId =>
    refine iff_of_true ?_ fun ⟨_, _, _, _, _, _, _, _, _, he, _⟩ => by cases he
    rcases cancel_ok h with ⟨-, rfl⟩ | ⟨-, -, p, b₁, hp, hr, rfl⟩
    · have hb' : HeapInv (b.rejected clientId orderId tickerId) ring :=
        hb.of_eq (by simp [rejected]) (by simp [rejected]) (by simp [rejected]) (by simp [rejected])
      exact (cancelable_iff hb').mpr hf
    · obtain ⟨hrem, hh⟩ := heap_removeOrder hb hr
      have hb' : HeapInv (b₁.canceled clientId orderId tickerId (b.orderPool.get p)) _ :=
        hh.of_eq (by simp [canceled]) (by simp [canceled]) (by simp [canceled]) (by simp [canceled])
      have hf' : b₁.Found := found_removed hf hrem
      exact (cancelable_iff hb').mpr hf'

/-- All along a run the index and the resting orders are in bijection if and only if no
remainder comes to rest under the ids of a resting order. -/
theorem run_cancelable_iff (h : Reaches call (fun _ _ => True) (fresh strict) rs b) :
    (∀ rs' t, rs' <+: rs → Reaches call (fun _ _ => True) (fresh strict) rs' t → t.Cancelable) ↔
      Reaches call (fun b r => ¬ b.Collides r) (fresh strict) rs b := by
  have hfresh : (fresh strict).Cancelable :=
    (cancelable_iff (heap_fresh strict)).mpr fun p hp => by simp [fresh, MemPool.Live, MemPool.ofSize] at hp
  have hiff : (∀ rs' t, rs' <+: rs → Reaches call (fun _ _ => True) (fresh strict) rs' t → t.Cancelable) ↔
      Reaches call (fun b r => True ∧ ¬ b.Collides r) (fresh strict) rs b := by
    refine h.always_iff (Q := fun b => ((∃ ring, HeapInv b ring) ∧ b.bidsAtPrice = none) ∧ b.Cancelable)
      ⟨⟨⟨_, heap_fresh strict⟩, rfl⟩, hfresh⟩ (fun b hq => hq.2) (fun b r b' hq _ hr => ?_)
    obtain ⟨⟨⟨ring, hb⟩, hbids⟩, hc⟩ := hq
    have hcall := cancelable_call hb hbids hc hr
    exact ⟨hcall.mp, fun hg => ⟨heap_call ⟨⟨ring, hb⟩, hbids⟩ hr, hcall.mpr hg⟩⟩
  refine hiff.trans ⟨fun hrun => hrun.mono fun _ _ hg => hg.2, fun hrun => hrun.mono fun _ _ hg => ⟨trivial, hg⟩⟩

/-- Ids that a fill and a cancel free are used again by the same client. -/
def freedIds : List Request :=
  [.add 3 7 0 .SELL 100 5, .add 4 7 0 .BUY 100 5, .add 3 7 0 .SELL 101 2, .cancel 3 7 0, .add 3 7 0 .BUY 99 1]

theorem run_cancelable_freedIds : ∃ b, Reaches call (fun _ _ => True) (fresh true) freedIds b ∧
    ((∀ rs' t, rs' <+: freedIds → Reaches call (fun _ _ => True) (fresh true) rs' t → t.Cancelable) ↔
      Reaches call (fun b r => ¬ b.Collides r) (fresh true) freedIds b) := by
  obtain ⟨b, hrun, -⟩ := exists_run true freedIds (fun _ => True) (by decide +kernel)
  exact ⟨b, hrun, run_cancelable_iff hrun⟩

/-- A second order under the ids of a resting one takes its entry. -/
theorem reused_ids_lose_order : ∃ b, Reaches call (fun _ _ => True) (fresh true)
    [.add 0 1 0 .SELL 100 5, .add 0 1 0 .SELL 101 5] b ∧ ¬ b.Cancelable := by
  obtain ⟨b, hrun, hlive, hentry⟩ := exists_run true [.add 0 1 0 .SELL 100 5, .add 0 1 0 .SELL 101 5]
    (fun b => b.orderPool.Live 0 ∧ b.entry 0 = some 1) (by decide +kernel)
  refine ⟨b, hrun, fun hc => ?_⟩
  obtain ⟨⟨ring, hb⟩, -⟩ := run_heap hrun
  rw [hc.found 0 (hb.resting_iff.mpr hlive)] at hentry
  cases hentry

end TradingEcosystem.MEOrderBook
