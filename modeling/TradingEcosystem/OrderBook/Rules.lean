import TradingEcosystem.OrderBook.Matching
import TradingEcosystem.OrderBook.Removal
import TradingEcosystem.OrderBook.Resting
import TradingEcosystem.Library.Runs

/-! The induction over a call and over a run, done once: a property that the seven
things that can happen to a book keep holds after every run. -/
namespace TradingEcosystem.MEOrderBook
open Program Runs
variable {b b' : MEOrderBook} {ring : Slot → List OrderPtr} {p : OrderPtr} {u : Unit} {e : Fault} {r : Request}
  {leaves leaves' : Qty} {x : Incoming}

theorem heap_filled (hb : HeapInv b ring) (x : Incoming) (p : OrderPtr) (leaves : Qty) :
    HeapInv (b.filled x p leaves) ring :=
  hb.congr (by simp) (by simp) (by simp) (by simp) (by simp)
    (fun q => ⟨view_filled x q MEOrder.nextOrder, view_filled x q MEOrder.prevOrder⟩)
    (fun q => ⟨view_filled x q MEOrder.price, view_filled x q MEOrder.clientId, view_filled x q MEOrder.clientOrderId⟩)
    (by simp) (by simp) (by simp)

/-- The invariant does not see messages and ids. -/
theorem HeapInv.of_eq (hb : HeapInv b ring) (hs : b'.priceOrdersAtPriceHashMap = b.priceOrdersAtPriceHashMap)
    (hi : b'.cidOidToOrder = b.cidOidToOrder) (ho : b'.orderPool = b.orderPool)
    (hl : b'.ordersAtPricePool = b.ordersAtPricePool) : HeapInv b' ring :=
  hb.congr hs hi (by simp [ho]) (by rw [ho]) (by rw [ho]) (by simp [nextOrder, prevOrder, ho]) (by simp [ho])
    (by simp [hl]) (by rw [hl]) (by rw [hl])

/-- The rings after order `p` left its ring. -/
def without (b : MEOrderBook) (ring : Slot → List OrderPtr) (p : OrderPtr) : Slot → List OrderPtr :=
  Function.update ring (b.slotOf p) ((ring (b.slotOf p)).erase p)

/-- What a matched order trades in a turn. -/
def fillQty (b : MEOrderBook) (p : OrderPtr) (leaves : Qty) : Qty := min leaves (b.orderPool.get p).qty

theorem fillQty_toNat (b : MEOrderBook) (p : OrderPtr) (leaves : Qty) :
    (b.fillQty p leaves).toNat = min leaves.toNat (b.orderPool.get p).qty.toNat := by
  have hmin : b.fillQty p leaves = if leaves ≤ (b.orderPool.get p).qty then leaves else (b.orderPool.get p).qty := rfl
  rw [hmin]
  split_ifs with h
  · rw [min_eq_left (UInt32.le_iff_toNat_le.mp h)]
  · rw [min_eq_right (le_of_not_ge fun h' => h (UInt32.le_iff_toNat_le.mpr h'))]

theorem sub_fillQty_toNat (b : MEOrderBook) (p : OrderPtr) (leaves : Qty) :
    (leaves - b.fillQty p leaves).toNat = leaves.toNat - (b.fillQty p leaves).toNat ∧
    ((b.orderPool.get p).qty - b.fillQty p leaves).toNat = (b.orderPool.get p).qty.toNat - (b.fillQty p leaves).toNat := by
  have hmin := fillQty_toNat b p leaves
  refine ⟨UInt32.toNat_sub_of_le _ _ (UInt32.le_iff_toNat_le.mpr ?_), UInt32.toNat_sub_of_le _ _ (UInt32.le_iff_toNat_le.mpr ?_)⟩
  · omega
  · omega

/-- A property `K` of the book and its rings, between two calls or while the order `x` is
matched and has `leaves` left, that the turns of the matching keep. -/
structure KeepsTurns (K : MEOrderBook → (Slot → List OrderPtr) → Option (Incoming × Qty) → Prop) : Prop where
  fill : ∀ {b ring x leaves p}, HeapInv b ring → K b ring (some (x, leaves)) → x.side = .BUY →
    Turn asksAtPrice (tooDear x.price) b leaves p → (b.orderPool.get p).qty - b.fillQty p leaves ≠ 0 →
    K (b.filled x p leaves) ring (some (x, leaves - b.fillQty p leaves))
  fillAll : ∀ {b ring x leaves p b'}, HeapInv b ring → K b ring (some (x, leaves)) → x.side = .BUY →
    Turn asksAtPrice (tooDear x.price) b leaves p → (b.orderPool.get p).qty - b.fillQty p leaves = 0 →
    removeOrder (some p) (b.filled x p leaves) = .ok () b' → Removed (b.filled x p leaves) b' p →
    HeapInv b' (b.without ring p) → K b' (b.without ring p) (some (x, leaves - b.fillQty p leaves))

/-- ... and that everything keeps that can happen to the book. -/
structure Keeps (guard : MEOrderBook → Request → Prop)
    (K : MEOrderBook → (Slot → List OrderPtr) → Option (Incoming × Qty) → Prop) : Prop extends KeepsTurns K where
  accept : ∀ {b ring clientId clientOrderId tickerId side price qty x}, HeapInv b ring → K b ring none →
    guard b (.add clientId clientOrderId tickerId side price qty) →
    x = b.incoming clientId clientOrderId tickerId side price → K (b.accepted x qty) ring (some (x, qty))
  done : ∀ {b ring x}, HeapInv b ring → K b ring (some (x, 0)) → K b ring none
  rest : ∀ {b ring x leaves p b₁ s o}, HeapInv b ring → K b ring (some (x, leaves)) → leaves ≠ 0 →
    (x.side = .BUY → Exhausted asksAtPrice (tooDear x.price) b leaves) → s = priceToIndex x.price →
    o = b.remainder (ring s) x.no x.clientId x.clientOrderId x.tickerId x.side x.price leaves x.id →
    Placed b b₁ s p o → Added b (b₁.indexed p o) p o →
    HeapInv (b₁.indexed p o) (Function.update ring s (ring s ++ [p])) →
    K ((b₁.indexed p o).reportUpdates [⟨some x.no,
      { type := .ADD, orderId := x.id, tickerId := x.tickerId, side := x.side, price := x.price, qty := leaves,
        priority := o.priority }⟩]) (Function.update ring s (ring s ++ [p])) none
  reject : ∀ {b ring clientId orderId tickerId}, HeapInv b ring → K b ring none →
    guard b (.cancel clientId orderId tickerId) → K (b.rejected clientId orderId tickerId) ring none
  cancel : ∀ {b ring clientId orderId tickerId p b₁}, HeapInv b ring → K b ring none →
    guard b (.cancel clientId orderId tickerId) → b.cidOidToOrder clientId orderId = some p →
    removeOrder (some p) b = .ok () b₁ → Removed b b₁ p → HeapInv b₁ (b.without ring p) →
    K (b₁.canceled clientId orderId tickerId (b.orderPool.get p)) (b.without ring p) none

section Rule
variable {guard : MEOrderBook → Request → Prop}
  {K : MEOrderBook → (Slot → List OrderPtr) → Option (Incoming × Qty) → Prop}

/-- The rule for one turn of the matching. -/
theorem KeepsTurns.turn (hK : KeepsTurns K) (hj : ∃ ring, HeapInv b ring ∧ K b ring (some (x, leaves)))
    (hside : x.side = .BUY) (ht : Turn asksAtPrice (tooDear x.price) b leaves p)
    (h : x.trade (some p) leaves b = .ok leaves' b') :
    ∃ ring', HeapInv b' ring' ∧ K b' ring' (some (x, leaves')) := by
  obtain ⟨ring, hb, hk⟩ := hj
  obtain ⟨rfl, ⟨hq, rfl⟩ | ⟨hq, hr⟩⟩ := trade_ok x h
  · exact ⟨ring, heap_filled hb x p leaves, hK.fill hb hk hside ht hq⟩
  · obtain ⟨hrem, hh⟩ := heap_removeOrder (heap_filled hb x p leaves) hr
    have hslot : (b.filled x p leaves).slotOf p = b.slotOf p := by rw [slotOf, view_filled x p MEOrder.price]
    rw [hslot] at hh
    exact ⟨_, hh, hK.fillAll hb hk hside ht hq hr hrem hh⟩

/-- The rule for the matching of one order. -/
theorem KeepsTurns.matching (hK : KeepsTurns K) (hb : HeapInv b ring) (hbids : b.bidsAtPrice = none) {qty : Qty}
    (hk : K b ring (some (x, qty))) (h : x.matching qty b = .ok leaves b') :
    (∃ ring', HeapInv b' ring' ∧ K b' ring' (some (x, leaves))) ∧
      (x.side = .BUY → Exhausted asksAtPrice (tooDear x.price) b' leaves) :=
  matching_ok (J := fun b leaves => ∃ ring, HeapInv b ring ∧ K b ring (some (x, leaves))) hbids
    (fun _ _ _ _ _ hj hs ht h => hK.turn hj hs ht h) ⟨ring, hb, hk⟩ h

theorem heap_accepted (hb : HeapInv b ring) (x : Incoming) (qty : Qty) : HeapInv (b.accepted x qty) ring :=
  hb.of_eq (by simp) (by simp) (by simp) (by simp)

variable (hK : Keeps guard K)
include hK

/-- The rule for one call that returns. -/
theorem Keeps.returns (hb : HeapInv b ring) (hbids : b.bidsAtPrice = none) (hk : K b ring none) (hg : guard b r)
    (h : call r b = .ok u b') : ∃ ring', HeapInv b' ring' ∧ K b' ring' none := by
  cases r with
  | add clientId clientOrderId tickerId side price qty =>
    obtain ⟨x, hx⟩ : ∃ x, x = b.incoming clientId clientOrderId tickerId side price := ⟨_, rfl⟩
    obtain ⟨b₁, leaves, hm, hend⟩ := add_ok hx h
    obtain ⟨⟨ring₁, hb₁, hk₁⟩, hex⟩ := hK.matching (heap_accepted hb x qty) hbids (hK.accept hb hk hg hx) hm
    rcases hend with ⟨rfl, rfl⟩ | ⟨hne, hrest⟩
    · exact ⟨ring₁, hb₁, hK.done hb₁ hk₁⟩
    · obtain ⟨p, b₂, s, o, hs, ho, hpl, hA, hH, rfl⟩ := rest_ok hb₁ hrest
      refine ⟨_, hH.of_eq (by simp) (by simp) (by simp) (by simp), ?_⟩
      exact hK.rest hb₁ hk₁ hne hex hs ho hpl hA hH
  | cancel clientId orderId tickerId =>
    rcases cancel_ok h with ⟨-, rfl⟩ | ⟨-, -, p, b₁, hp, hr, rfl⟩
    · exact ⟨ring, hb.of_eq (by simp [rejected]) (by simp [rejected]) (by simp [rejected]) (by simp [rejected]),
        hK.reject hb hk hg⟩
    · obtain ⟨hrem, hh⟩ := heap_removeOrder hb hr
      refine ⟨_, ?_, hK.cancel hb hk hg hp hr hrem hh⟩
      exact hh.of_eq (by simp [canceled]) (by simp [canceled]) (by simp [canceled]) (by simp [canceled])

/-- The rule for one call that stops: it stopped in a state where `K` holds, but for what
`answers` does not show, or right after the messages of a fill there. -/
theorem Keeps.stops (hb : HeapInv b ring) (hbids : b.bidsAtPrice = none) (hk : K b ring none) (hg : guard b r)
    (h : call r b = .error e b') : ∃ b₁ ring₁ phase, HeapInv b₁ ring₁ ∧ K b₁ ring₁ phase ∧
      (answers b' = answers b₁ ∨ ∃ x leaves p, phase = some (x, leaves) ∧ x.side = .BUY ∧
        Turn asksAtPrice (tooDear x.price) b₁ leaves p ∧ answers b' = answers (b₁.filled x p leaves)) := by
  cases r with
  | add clientId clientOrderId tickerId side price qty =>
    obtain ⟨x, hx⟩ : ∃ x, x = b.incoming clientId clientOrderId tickerId side price := ⟨_, rfl⟩
    have hacc := hK.accept hb hk hg hx
    rcases add_error hx h with herr | ⟨leaves, b₁, hm, herr⟩
    · obtain ⟨b₁, leaves, ⟨ring₁, hb₁, hk₁⟩, hend⟩ := matching_error
        (J := fun b leaves => ∃ ring, HeapInv b ring ∧ K b ring (some (x, leaves)))
        (show (b.accepted x qty).bidsAtPrice = none from hbids)
        (fun _ _ _ _ _ hj hs ht h => hK.toKeepsTurns.turn hj hs ht h) ⟨ring, heap_accepted hb x qty, hacc⟩ herr
      refine ⟨b₁, ring₁, some (x, leaves), hb₁, hk₁, ?_⟩
      rcases hend with ⟨rfl, -⟩ | ⟨p, hs, ht, herr⟩
      · exact .inl rfl
      · rcases trade_error x herr with rfl | hr
        · exact .inl rfl
        · exact .inr ⟨x, leaves, p, rfl, hs, ht, (answers_of_journal (quiet_removeOrder _).journal).of_error hr⟩
    · obtain ⟨⟨ring₁, hb₁, hk₁⟩, -⟩ := hK.matching (heap_accepted hb x qty) hbids hacc hm
      exact ⟨b₁, ring₁, some (x, leaves), hb₁, hk₁, .inl ((answers_rest _ _ _ _ _ _ _ _).of_error herr)⟩
  | cancel clientId orderId tickerId =>
    refine ⟨b, ring, none, hb, hk, .inl ?_⟩
    have hl := congrArg Prod.snd (cancel_error h)
    simp only [ledger, journal, Prod.mk.injEq] at hl
    simp only [answers, hl]

end Rule

/-! ## What all calls keep -/

section Frames
variable {R : MEOrderBook → MEOrderBook → Prop} [IsPreorder MEOrderBook R]
  (quiet : ∀ b b', journal b' = journal b → R b b')
  (response : ∀ b l, R b (b.reportResponses l)) (update : ∀ b l, R b (b.reportUpdates l))
include quiet response update

theorem frame_trade (x : Incoming) (itr : Option OrderPtr) (leaves : Qty) : Frame R (x.trade itr leaves) := by
  have hr : ∀ about m, Frame R (sendClientResponse about m) := fun _ _ b => response b _
  have hu : ∀ about m, Frame R (sendMarketUpdate about m) := fun _ _ b => update b _
  refine .bind (frame_order _) fun o => .bind (frame_setOrder (fun b p => quiet _ _ rfl) _) fun _ => ?_
  refine .bind (frame_order _) fun o => .bind (hr _ _) fun _ => .bind (hr _ _) fun _ => .bind (hu _ _) fun _ => ?_
  refine .bind (.ite (.bind (hu _ _) fun _ => (quiet_removeOrder _).journal.mono quiet) (hu _ _)) fun _ => .pure _

theorem frame_matchLoop (x : Incoming) (best : MEOrderBook → Option LevelPtr) (stop : Price → Bool)
    (fuel : Nat) (leaves : Qty) : Frame R (matchLoop best stop x.trade fuel leaves) := by
  induction fuel generalizing leaves with
  | zero => exact .throw _
  | succ fuel ih =>
    refine .bind .get fun b => .ite (.pure _) (.bind (frame_level _) fun l => ?_)
    refine .bind (frame_order _) fun o => .ite (.pure _) (.bind ?_ fun leaves => ih leaves)
    exact frame_trade quiet response update x _ _

theorem frame_matching (x : Incoming) (qty : Qty) : Frame R (x.matching qty) := by
  rw [matching_eq]
  refine .bind (.ite (frame_matchLoop quiet response update x _ _ _ _) (.pure _)) fun leaves => ?_
  exact .ite (frame_matchLoop quiet response update x _ _ _ _) (.pure _)

omit response in
theorem frame_rest (x : Incoming) (leaves : Qty) : Frame R (x.rest leaves) := by
  have hq : ∀ {α : Type} {y : BookM α}, Quiet y → Frame R y := fun h => h.journal.mono quiet
  refine .bind (hq (quiet_getNextPriority _)) fun _ => .bind ((journal_allocateOrder _).mono quiet) fun p => ?_
  exact .bind (hq (quiet_addOrder _)) fun _ b => update b _

/-- A relation that survives pointer operations and messages relates the book after the
ACCEPTED response to the book at the end of the call. -/
theorem frame_add (clientId : ClientId) (clientOrderId : OrderId) (tickerId : TickerId) (side : Side) (price : Price)
    (qty : Qty) (b : MEOrderBook) : R (b.accepted (b.incoming clientId clientOrderId tickerId side price) qty)
      (final (add clientId clientOrderId tickerId side price qty b)) := by
  rw [add_apply rfl]
  refine Frame.bind (frame_matching quiet response update _ _) (fun leaves => ?_) _
  exact .ite (frame_rest quiet update _ _) (.pure _)

theorem frame_cancel (clientId : ClientId) (orderId : OrderId) (tickerId : TickerId) :
    Frame R (cancel clientId orderId tickerId) := by
  have hr : ∀ about m, Frame R (sendClientResponse about m) := fun _ _ b => response b _
  have hu : ∀ about m, Frame R (sendMarketUpdate about m) := fun _ _ b => update b _
  refine .bind (.ite (.ite (.bind .get fun _ => .pure _) (.throw _)) (.pure _)) fun q => ?_
  refine .ite (hr _ _) (.bind (frame_order _) fun o => .bind ((quiet_removeOrder _).journal.mono quiet) fun _ => ?_)
  exact .bind (hu _ _) fun _ => hr _ _

end Frames

/-- The ids drawn by a request: one by an `add`, whether it returns or stops. -/
theorem drawn_call (r : Request) (b : MEOrderBook) :
    (∃ clientId clientOrderId tickerId side price qty, r = .add clientId clientOrderId tickerId side price qty ∧
      (final (call r b)).issued = b.issued ++ [b.nextMarketOrderId] ∧
      (final (call r b)).nextMarketOrderId = b.nextMarketOrderId + 1) ∨
    (∃ clientId orderId tickerId, r = .cancel clientId orderId tickerId ∧ (final (call r b)).issued = b.issued ∧
      (final (call r b)).nextMarketOrderId = b.nextMarketOrderId) := by
  have hquiet : ∀ b b' : MEOrderBook, journal b' = journal b →
      Fixes (fun b => (b.issued, b.nextMarketOrderId)) b b' := fun b b' h => by
    simp only [journal, Prod.mk.injEq] at h
    simp [Fixes, h]
  cases r with
  | add clientId clientOrderId tickerId side price qty =>
    have hf := frame_add hquiet (fun _ _ => rfl) (fun _ _ => rfl) clientId clientOrderId tickerId side price qty b
    simp only [Fixes, Prod.mk.injEq] at hf
    exact .inl ⟨_, _, _, _, _, _, rfl, hf.1, hf.2⟩
  | cancel clientId orderId tickerId =>
    have hf := frame_cancel hquiet (fun _ _ => rfl) (fun _ _ => rfl) clientId orderId tickerId b
    simp only [Fixes, Prod.mk.injEq] at hf
    exact .inr ⟨_, _, _, rfl, hf.1, hf.2⟩

/-- No call writes the bids pointer, or changes the mode of the run. -/
theorem frame_bids (r : Request) : Frame (Fixes fun b => (b.bidsAtPrice, b.strict)) (call r) := by
  have hquiet : ∀ b b' : MEOrderBook, journal b' = journal b → Fixes (fun b => (b.bidsAtPrice, b.strict)) b b' :=
    fun b b' h => by
      simp only [journal, Prod.mk.injEq] at h
      simp [Fixes, h]
  cases r with
  | add clientId clientOrderId tickerId side price qty =>
    exact frame_add hquiet (fun _ _ => rfl) (fun _ _ => rfl) clientId clientOrderId tickerId side price qty
  | cancel clientId orderId tickerId => exact frame_cancel hquiet (fun _ _ => rfl) (fun _ _ => rfl) _ _ _

/-- Messages and ids are only added. -/
def Grows (b b' : MEOrderBook) : Prop := b.clientResponses <+: b'.clientResponses ∧ b.issued <+: b'.issued

instance : IsPreorder MEOrderBook Grows where
  refl _ := ⟨List.prefix_rfl, List.prefix_rfl⟩
  trans _ _ _ h h' := ⟨h.1.trans h'.1, h.2.trans h'.2⟩

theorem grows_of_journal (h : journal b' = journal b) : b.Grows b' := by
  simp only [journal, Prod.mk.injEq] at h
  rw [Grows, h.1, h.2.2.1]
  exact ⟨List.prefix_rfl, List.prefix_rfl⟩

theorem grows_responses (b : MEOrderBook) (l : List (Report MEClientResponse)) : b.Grows (b.reportResponses l) :=
  ⟨List.prefix_append _ _, List.prefix_rfl⟩

theorem grows_updates (b : MEOrderBook) (l : List (Report MEMarketUpdate)) : b.Grows (b.reportUpdates l) :=
  ⟨List.prefix_rfl, List.prefix_rfl⟩

/-- What an `add` accepts it has told before it can stop. -/
theorem grows_accepted (clientId : ClientId) (clientOrderId : OrderId) (tickerId : TickerId) (side : Side) (price : Price)
    (qty : Qty) (b : MEOrderBook) : (b.accepted (b.incoming clientId clientOrderId tickerId side price) qty).Grows
      (final (add clientId clientOrderId tickerId side price qty b)) :=
  frame_add (fun _ _ => grows_of_journal) grows_responses grows_updates _ _ _ _ _ _ _

/-- The response to an `add` comes before all others. -/
theorem accepted_add (clientId : ClientId) (clientOrderId : OrderId) (tickerId : TickerId) (side : Side) (price : Price)
    (qty : Qty) (b : MEOrderBook) : ∃ m rest,
      (final (add clientId clientOrderId tickerId side price qty b)).clientResponses = b.clientResponses ++ m :: rest ∧
        m.msg.type = .ACCEPTED ∧ m.msg.clientId = clientId ∧ m.msg.clientOrderId = clientOrderId := by
  obtain ⟨rest, hrest⟩ := (grows_accepted clientId clientOrderId tickerId side price qty b).1
  exact ⟨_, rest, hrest.symm.trans (List.append_assoc ..), rfl, rfl, rfl⟩

theorem grows_call (r : Request) (b : MEOrderBook) : b.Grows (final (call r b)) := by
  cases r with
  | add clientId clientOrderId tickerId side price qty =>
    have hacc : b.Grows (b.accepted (b.incoming clientId clientOrderId tickerId side price) qty) :=
      ⟨List.prefix_append _ _, List.prefix_append _ _⟩
    exact trans_of Grows hacc (grows_accepted _ _ _ _ _ _ _)
  | cancel clientId orderId tickerId =>
    exact frame_cancel (fun _ _ => grows_of_journal) grows_responses grows_updates _ _ _ _

/-! ## Runs -/

section Runs
variable {guard : MEOrderBook → Request → Prop} {strict : Bool} {rs : List Request}

/-- The ids a book has drawn are 1, 2, ... modulo 2^64. -/
def Counted (b : MEOrderBook) : Prop :=
  b.issued = (List.range b.issued.length).map (fun i => UInt64.ofNat (i + 1)) ∧
    b.nextMarketOrderId = UInt64.ofNat (b.issued.length + 1)

theorem counted_call (r : Request) (hc : b.Counted) :
    (final (call r b)).Counted ∧ (final (call r b)).issued.length ≤ b.issued.length + 1 := by
  rcases drawn_call r b with ⟨_, _, _, _, _, _, -, hi, hn⟩ | ⟨_, _, _, -, hi, hn⟩
  · have hlen : (final (call r b)).issued.length = b.issued.length + 1 := by rw [hi]; simp
    refine ⟨⟨?_, ?_⟩, hlen.le⟩
    · rw [hlen, List.range_succ, List.map_append, List.map_singleton, ← hc.1, hi, hc.2]
    · rw [hn, hc.2, hlen, UInt64.ofNat_add (_ + 1)]
      rfl
  · rw [hi, Counted, hi, hn]
    exact ⟨hc, Nat.le_succ _⟩

/-- A run draws at most one id for a request. -/
theorem run_counted (h : Reaches call guard (fresh strict) rs b) : b.Counted ∧ b.issued.length ≤ rs.length := by
  refine h.invariant (I := fun rs b => b.Counted ∧ b.issued.length ≤ rs.length) ⟨⟨rfl, rfl⟩, le_rfl⟩ ?_
  intro rs b r b' ⟨hc, hlen⟩ _ hcall
  have hd := counted_call r hc
  rw [hcall, final_ok] at hd
  exact ⟨hd.1, by rw [List.length_append, List.length_singleton]; omega⟩

theorem Counted.nodup (hc : b.Counted) (hlen : b.issued.length < 2 ^ 64) : b.issued.Nodup := by
  rw [hc.1]
  refine List.Nodup.map_on (fun i hi j hj h => ?_) List.nodup_range
  have hi := List.mem_range.mp hi
  have hj := List.mem_range.mp hj
  have h' := congrArg UInt64.toNat h
  rw [UInt64.toNat_ofNat_of_lt' (by simp only [UInt64.size]; omega),
    UInt64.toNat_ofNat_of_lt' (by simp only [UInt64.size]; omega)] at h'
  omega

theorem run_bids (h : Reaches call guard (fresh strict) rs b) : b.bidsAtPrice = none ∧ b.strict = strict := by
  refine h.invariant (I := fun _ b => b.bidsAtPrice = none ∧ b.strict = strict) ⟨rfl, rfl⟩ ?_
  intro rs b r b' hb _ hcall
  have hf := (frame_bids r).of_ok hcall
  simp only [Fixes, Prod.mk.injEq] at hf
  rw [hf.1, hf.2]
  exact hb

/-- In a run of fewer than 2^64 requests no id is drawn twice. -/
theorem run_unwrapped (h : Reaches call guard (fresh strict) rs b) (hlen : rs.length < 2 ^ 64) :
    Reaches call (fun b r => guard b r ∧ b.issued.length + 1 < 2 ^ 64) (fresh strict) rs b := by
  induction h with
  | start => exact .start
  | @call rs b b' r run ok returns ih =>
    have hl : rs.length + 1 < 2 ^ 64 := by simpa using hlen
    have hi := (run_counted run).2
    exact .call (ih (by omega)) ⟨ok, by omega⟩ returns

variable {K : MEOrderBook → (Slot → List OrderPtr) → Option (Incoming × Qty) → Prop}

/-- The rule for a run all of whose calls returned. -/
theorem Keeps.run (hK : Keeps guard K) (h₀ : K (fresh strict) (fun _ => []) none)
    (h : Reaches call guard (fresh strict) rs b) : ∃ ring, HeapInv b ring ∧ K b ring none := by
  have hi := h.invariant (I := fun _ b => (∃ ring, HeapInv b ring ∧ K b ring none) ∧ b.bidsAtPrice = none)
    ⟨⟨_, heap_fresh strict, h₀⟩, rfl⟩ (fun _ b r b' hI hg hcall => by
      obtain ⟨⟨ring, hb, hk⟩, hbids⟩ := hI
      have hf := (frame_bids r).of_ok hcall
      simp only [Fixes, Prod.mk.injEq] at hf
      exact ⟨hK.returns hb hbids hk hg hcall, hf.1.trans hbids⟩)
  exact hi.1

/-- The heap of the book is in order after every call and every run. -/
theorem heap_call (h : (∃ ring, HeapInv b ring) ∧ b.bidsAtPrice = none) {r : Request}
    (hr : call r b = .ok () b') : (∃ ring, HeapInv b' ring) ∧ b'.bidsAtPrice = none := by
  obtain ⟨⟨ring, hb⟩, hbids⟩ := h
  have hK : Keeps (fun _ _ => True) fun _ _ _ => True := by
    refine ⟨⟨?_, ?_⟩, ?_, ?_, ?_, ?_, ?_⟩ <;> intros <;> trivial
  obtain ⟨ring', hb', -⟩ := hK.returns hb hbids trivial trivial hr
  have hf := (frame_bids r).of_ok hr
  simp only [Fixes, Prod.mk.injEq] at hf
  exact ⟨⟨ring', hb'⟩, hf.1.trans hbids⟩

theorem run_heap (h : Reaches call guard (fresh strict) rs b) : (∃ ring, HeapInv b ring) ∧ b.bidsAtPrice = none :=
  h.invariant (I := fun _ b => (∃ ring, HeapInv b ring) ∧ b.bidsAtPrice = none) ⟨⟨_, heap_fresh strict⟩, rfl⟩
    fun _ _ _ _ hI _ hr => heap_call hI hr

/-- Everything of a book but the messages to clients and the drawn ids. -/
def holdings (b : MEOrderBook) :=
  (b.orderPool, b.ordersAtPricePool, b.priceOrdersAtPriceHashMap, b.cidOidToOrder, b.asksAtPrice, b.bidsAtPrice,
    b.marketUpdates, b.strict)

/-- Adds of nothing draw ids and change nothing else. -/
theorem run_emptyAdds (h : Reaches call (fun _ _ => True) (fresh strict) rs b) (n : Nat) :
    ∃ b', Reaches call (fun _ _ => True) (fresh strict) (rs ++ List.replicate n (.add 0 0 0 .BUY 0 0)) b' ∧
      holdings b' = holdings b ∧ b'.issued.length = b.issued.length + n := by
  induction n with
  | zero => exact ⟨b, by rwa [List.replicate_zero, List.append_nil], rfl, rfl⟩
  | succ n ih =>
    obtain ⟨b₁, hrun, hh, hlen⟩ := ih
    obtain ⟨x, hx⟩ : ∃ x, x = b₁.incoming 0 0 0 .BUY 0 := ⟨_, rfl⟩
    have hidle : x.matching 0 (b₁.accepted x 0) = .ok 0 (b₁.accepted x 0) := matching_idle (run_bids hrun).1 (.inr rfl)
    have hadd : call (.add 0 0 0 .BUY 0 0) b₁ = .ok () (b₁.accepted x 0) := by
      rw [call, add_apply hx, bind_of_ok hidle]
      rfl
    refine ⟨b₁.accepted x 0, ?_, hh, ?_⟩
    · rw [List.replicate_succ', ← List.append_assoc]
      exact .call hrun trivial hadd
    · rw [show (b₁.accepted x 0).issued = b₁.issued ++ [b₁.nextMarketOrderId] from rfl]
      simp only [List.length_append, List.length_singleton, hlen, Nat.add_assoc]

/-- A run found by evaluation, with what was computed of its last state. The evaluated
`check` may say more than the guard, and the guard may rest on the heap being in order. -/
theorem exists_checkedRun {check : MEOrderBook → Request → Bool}
    (hcheck : ∀ b r, (∃ ring, HeapInv b ring) → check b r = true → guard b r) (strict : Bool) (rs : List Request)
    (P : MEOrderBook → Prop) [DecidablePred P]
    (h : (execute call check rs (fresh strict)).any (fun b => decide (P b)) = true) :
    ∃ b, Reaches call guard (fresh strict) rs b ∧ P b := by
  obtain ⟨b, hrun, hP⟩ := exists_of_execute h
  refine ⟨b, ?_, hP⟩
  clear h hP
  induction hrun with
  | start => exact .start
  | call run ok returns ih => exact .call ih (hcheck _ _ (run_heap run).1 ok) returns

theorem exists_guardedRun [∀ b r, Decidable (guard b r)] (strict : Bool) (rs : List Request) (P : MEOrderBook → Prop)
    [DecidablePred P]
    (h : (execute call (fun b r => decide (guard b r)) rs (fresh strict)).any (fun b => decide (P b)) = true) :
    ∃ b, Reaches call guard (fresh strict) rs b ∧ P b :=
  exists_checkedRun (fun _ _ _ => of_decide_eq_true) strict rs P h

/-- A completed run found by evaluation, with what was computed of its last state. -/
theorem exists_run (strict : Bool) (rs : List Request) (P : MEOrderBook → Prop) [DecidablePred P]
    (h : (execute call (fun _ _ => true) rs (fresh strict)).any (fun b => decide (P b)) = true) :
    ∃ b, Reaches call (fun _ _ => True) (fresh strict) rs b ∧ P b := by
  obtain ⟨b, hrun, hP⟩ := exists_of_execute h
  exact ⟨b, hrun.mono fun _ _ _ => trivial, hP⟩

end Runs

end TradingEcosystem.MEOrderBook
