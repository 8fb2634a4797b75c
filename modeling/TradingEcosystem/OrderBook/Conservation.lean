import TradingEcosystem.OrderBook.LevelPool

/-! Quantities over whole runs: what was accepted of an order is resting, was filled or was
cancelled, however the requests abuse slots, ids and sides. -/
namespace TradingEcosystem.MEOrderBook
open Program Runs MemPool
variable {b b' : MEOrderBook} {ring : Slot → List OrderPtr} {p : OrderPtr} {o : MEOrder} {x : Incoming} {leaves qty : Qty}
  {n : Nat} {rs : List Request}

/-- What the messages of one type about order `n` add up to. -/
def tally (n : Nat) (type : ClientResponseType) (amount : MEClientResponse → Qty) (l : List (Report MEClientResponse)) : Nat :=
  (l.map fun r => if r.about = some n ∧ r.msg.type = type then (amount r.msg).toNat else 0).sum

theorem tally_append (type : ClientResponseType) (amount : MEClientResponse → Qty) (l l' : List (Report MEClientResponse)) :
    tally n type amount (l ++ l') = tally n type amount l + tally n type amount l' := by
  rw [tally, List.map_append, List.sum_append, tally, tally]

/-- The part of an order that belongs to the `add` with number `n`. -/
def stake (n : Nat) (o : MEOrder) : Nat := if o.addNo = some n then o.qty.toNat else 0

/-- What is in the book of order `n`. -/
def restingQty (n : Nat) (b : MEOrderBook) : Nat := ∑ p ∈ b.orderPool.inUse, stake n (b.orderPool.get p)

/-- What the order being matched has left, if it is order `n`. -/
def inHand (n : Nat) : Option (Incoming × Qty) → Nat
  | none => 0
  | some (x, leaves) => if x.no = n then leaves.toNat else 0

/-- The accounts of order `n` are even. -/
def Even (n : Nat) (b : MEOrderBook) (phase : Option (Incoming × Qty)) : Prop :=
  tally n .ACCEPTED (·.leavesQty) b.clientResponses = restingQty n b + inHand n phase +
    tally n .FILLED (·.execQty) b.clientResponses + tally n .CANCELED (·.leavesQty) b.clientResponses

/-! ## What is in the book -/

theorem restingQty_congr (hpool : b'.orderPool = b.orderPool) : restingQty n b' = restingQty n b := by
  rw [restingQty, hpool, restingQty]

/-- A fill takes what it trades from the resting order. -/
theorem restingQty_filled (hb : HeapInv b ring) (hp : b.orderPool.Live p) :
    restingQty n (b.filled x p leaves) + (if (b.orderPool.get p).addNo = some n then (b.fillQty p leaves).toNat else 0) =
      restingQty n b := by
  have hmem : p ∈ b.orderPool.inUse := mem_inUse.mpr ⟨hb.orderBound p hp, hp⟩
  have hothers : ∑ q ∈ b.orderPool.inUse.erase p, stake n ((b.filled x p leaves).orderPool.get q) =
      ∑ q ∈ b.orderPool.inUse.erase p, stake n (b.orderPool.get q) :=
    Finset.sum_congr rfl fun q hq => by rw [get_filled, if_neg (Finset.ne_of_mem_erase hq)]
  have hafter := Finset.add_sum_erase _ (fun q => stake n ((b.filled x p leaves).orderPool.get q)) hmem
  have hbefore := Finset.add_sum_erase _ (fun q => stake n (b.orderPool.get q)) hmem
  have hself : stake n ((b.filled x p leaves).orderPool.get p) +
      (if (b.orderPool.get p).addNo = some n then (b.fillQty p leaves).toNat else 0) = stake n (b.orderPool.get p) := by
    have hqty := (sub_fillQty_toNat b p leaves).2
    have hmin := fillQty_toNat b p leaves
    rw [get_filled, if_pos rfl]
    change (if (b.orderPool.get p).addNo = some n then ((b.orderPool.get p).qty - b.fillQty p leaves).toNat else 0) + _ =
      if (b.orderPool.get p).addNo = some n then (b.orderPool.get p).qty.toNat else 0
    split_ifs
    · omega
    · rfl
  rw [restingQty, restingQty, inUse_filled]
  omega

/-- An order that leaves takes its part along. -/
theorem restingQty_removed (hb : HeapInv b ring) (hr : Removed b b' p) :
    restingQty n b' + stake n (b.orderPool.get p) = restingQty n b := by
  have hmem : p ∈ b.orderPool.inUse := mem_inUse.mpr ⟨hb.orderBound p hr.live, hr.live⟩
  rw [restingQty, restingQty, hr.inUse, ← Finset.sum_erase_add _ _ hmem]
  refine congrArg (· + _) (Finset.sum_congr rfl fun q _ => ?_)
  exact view_of_content (stake n) (hr.content q)

theorem restingQty_added (hadd : Added b b' p o) (hbound : p < b.orderPool.size) :
    restingQty n b' = stake n o + restingQty n b := by
  have hset : b'.orderPool.inUse = insert p b.orderPool.inUse := by
    ext q
    rw [mem_inUse, Finset.mem_insert, mem_inUse, hadd.size, hadd.live_iff]
    constructor
    · rintro ⟨hq, h⟩
      exact h.imp_right fun h => ⟨hq, h⟩
    · rintro (rfl | ⟨hq, h⟩)
      · exact ⟨hbound, .inl rfl⟩
      · exact ⟨hq, .inr h⟩
  have hnew : p ∉ b.orderPool.inUse := fun h => hadd.free (mem_inUse.mp h).2
  rw [restingQty, restingQty, hset, Finset.sum_insert hnew, hadd.view (stake n)]
  refine congrArg (_ + ·) (Finset.sum_congr rfl fun q hq => ?_)
  exact view_of_content (stake n) (hadd.content q (ne_of_mem_of_not_mem hq hnew))

/-! ## What is told -/

/-- Both parties of a fill are told the same quantity. -/
theorem tally_fill : tally n .FILLED (·.execQty) (fillResponses x (b.orderPool.get p) leaves) =
    (if x.no = n then (b.fillQty p leaves).toNat else 0) +
      if (b.orderPool.get p).addNo = some n then (b.fillQty p leaves).toNat else 0 := by
  simp [tally, fillResponses, fillQty]

theorem tally_fill_other {type : ClientResponseType} {amount : MEClientResponse → Qty} (h : type ≠ .FILLED) :
    tally n type amount (fillResponses x (b.orderPool.get p) leaves) = 0 := by
  simp [tally, fillResponses, h.symm]

/-- A fill moves as much from the two orders as the messages tell of it. -/
private theorem even_filled (hb : HeapInv b ring) (hp : b.orderPool.Live p) (h : Even n b (some (x, leaves))) :
    Even n (b.filled x p leaves) (some (x, leaves - b.fillQty p leaves)) := by
  have hrest : restingQty n (b.filled x p leaves) + _ = _ := restingQty_filled hb hp
  have hleft := (sub_fillQty_toNat b p leaves).1
  have hmin := fillQty_toNat b p leaves
  rw [Even] at h ⊢
  rw [filled_clientResponses, tally_append, tally_append, tally_append, tally_fill, tally_fill_other (by decide),
    tally_fill_other (by decide)]
  simp only [inHand, hleft] at h ⊢
  split_ifs at h hrest ⊢ <;> omega

/-- Messages that are not about a fill count for the order they are about. -/
private theorem even_report {phase phase' : Option (Incoming × Qty)} {r : Report MEClientResponse} (h : Even n b phase)
    (hresponses : b'.clientResponses = b.clientResponses ++ [r])
    (hsum : tally n .ACCEPTED (·.leavesQty) [r] + restingQty n b + inHand n phase =
      restingQty n b' + inHand n phase' + tally n .FILLED (·.execQty) [r] + tally n .CANCELED (·.leavesQty) [r]) :
    Even n b' phase' := by
  rw [Even] at h ⊢
  rw [hresponses, tally_append, tally_append, tally_append]
  omega

theorem keeps_even (n : Nat) : Keeps (fun _ _ => True) fun b _ phase => b.strict = true ∧ Even n b phase where
  accept := by
    rintro b ring clientId clientOrderId tickerId side price qty x hb ⟨hstrict, h⟩ - rfl
    refine ⟨hstrict, even_report h rfl ?_⟩
    rw [restingQty_congr (accepted_orderPool _ _ _)]
    simp [tally, inHand, add_comm]
  fill hb hk hside hturn hq := ⟨hk.1, even_filled hb (hturn.checked hk.1) hk.2⟩
  fillAll := by
    rintro b ring x leaves p b' hb ⟨hstrict, h⟩ - hturn hfull hrem hr hb'
    have hfilled := even_filled hb (hturn.checked hstrict) h
    have hrest := restingQty_removed (n := n) (heap_filled hb x p leaves) hr
    have hnone : stake n ((b.filled x p leaves).orderPool.get p) = 0 := by
      rw [get_filled, if_pos rfl, stake]
      change (if (b.orderPool.get p).addNo = some n then ((b.orderPool.get p).qty - b.fillQty p leaves).toNat else 0) = 0
      rw [hfull, UInt32.toNat_zero, ite_self]
    have hj := hr.journal
    simp only [journal, Prod.mk.injEq] at hj
    refine ⟨hj.2.2.2.2.2.trans hstrict, ?_⟩
    rw [Even, hj.1]
    rw [Even] at hfilled
    omega
  done := by
    rintro b ring x hb ⟨hstrict, h⟩
    refine ⟨hstrict, ?_⟩
    have hnone : inHand n (some (x, 0)) = inHand n none := by simp [inHand]
    rw [Even] at h ⊢
    rwa [hnone] at h
  rest := by
    rintro b ring x leaves p b₁ s o hb ⟨hstrict, h⟩ - - - ho - hadd hb₁
    have hj := hadd.journal
    simp only [journal, Prod.mk.injEq] at hj
    refine ⟨hj.2.2.2.2.2.trans hstrict, ?_⟩
    have hlive : (b₁.indexed p o).orderPool.Live p := (hadd.live_iff p).mpr (.inl rfl)
    have hrest := restingQty_added (n := n) hadd (hadd.size ▸ hb₁.orderBound p hlive)
    have hstake : stake n o = inHand n (some (x, leaves)) := by
      rw [ho]
      simp [stake, remainder, inHand]
    have hnone : inHand n none = 0 := rfl
    rw [Even] at h ⊢
    rw [reportUpdates_clientResponses, hj.1, restingQty_congr (reportUpdates_orderPool _ _)]
    omega
  reject := by
    rintro b ring clientId orderId tickerId hb ⟨hstrict, h⟩ -
    refine ⟨hstrict, even_report h rfl ?_⟩
    rw [restingQty_congr (show (b.rejected clientId orderId tickerId).orderPool = b.orderPool from rfl)]
    simp [tally, inHand]
  cancel := by
    rintro b ring clientId orderId tickerId p b₁ hb ⟨hstrict, h⟩ - - hrem hr hb₁
    have hj := hr.journal
    simp only [journal, Prod.mk.injEq] at hj
    have hresponses := congrArg (· ++ [(⟨(b.orderPool.get p).addNo,
      { type := .CANCELED, clientId, tickerId, clientOrderId := orderId, marketOrderId := (b.orderPool.get p).marketOrderId,
        side := (b.orderPool.get p).side, price := (b.orderPool.get p).price, execQty := qtyInvalid,
        leavesQty := (b.orderPool.get p).qty }⟩ : Report MEClientResponse)]) hj.1
    refine ⟨hj.2.2.2.2.2.trans hstrict, even_report h hresponses ?_⟩
    have hpool : restingQty n (b₁.canceled clientId orderId tickerId (b.orderPool.get p)) = restingQty n b₁ := restingQty_congr rfl
    rw [hpool, ← restingQty_removed hb hr]
    simp [tally, inHand, stake]

/-- After every run that never follows a null or freed pointer, what an order was accepted with is
what of it rests in the book, what its FILLED responses tell and what a CANCELED response tells,
whatever the requests were. -/
theorem run_conserved (h : Reaches call (fun _ _ => True) (fresh true) rs b) (n : Nat) :
    tally n .ACCEPTED (·.leavesQty) b.clientResponses = restingQty n b + tally n .FILLED (·.execQty) b.clientResponses +
      tally n .CANCELED (·.leavesQty) b.clientResponses := by
  have hempty : restingQty n (fresh true) = 0 := Finset.sum_eq_zero fun p hp => by
    simp [mem_inUse, fresh, MemPool.Live, MemPool.ofSize] at hp
  have hfresh : Even n (fresh true) none := by rw [Even, hempty]; rfl
  obtain ⟨ring, -, -, heven⟩ := (keeps_even n).run ⟨rfl, hfresh⟩ h
  exact heven

/-- An order to sell is filled twice in part, and the rest of it cancelled. -/
theorem run_conserved_threeWays : ∃ b, Reaches call (fun _ _ => True) (fresh true)
    [.add 0 0 0 .SELL 100 10, .add 1 1 0 .BUY 100 3, .add 2 2 0 .BUY 105 4, .cancel 0 0 0] b ∧
    tally 0 .ACCEPTED (·.leavesQty) b.clientResponses = restingQty 0 b + tally 0 .FILLED (·.execQty) b.clientResponses +
      tally 0 .CANCELED (·.leavesQty) b.clientResponses := by
  obtain ⟨b, hrun, -⟩ := exists_run true
    [.add 0 0 0 .SELL 100 10, .add 1 1 0 .BUY 100 3, .add 2 2 0 .BUY 105 4, .cancel 0 0 0] (fun _ => True) (by decide +kernel)
  exact ⟨b, hrun, run_conserved hrun 0⟩

end TradingEcosystem.MEOrderBook
