import TradingEcosystem.OrderBook.Rules

/-! Whose orders a book holds and whom its responses name: nobody but the clients whose
requests it was given, also where a pointer to a freed block is followed. -/
namespace TradingEcosystem.MEOrderBook
open Program Runs
variable {P P' : ClientId → OrderId → Prop} {b b' : MEOrderBook} {ring : Slot → List OrderPtr} {p q : OrderPtr}
  {ℓ : LevelPtr} {u : Unit} {r : Request} {strict : Bool} {rs : List Request} {x : Incoming} {leaves : Qty}

/-- The ids in a block of the order pool have the property `P`. -/
def Names (P : ClientId → OrderId → Prop) (b : MEOrderBook) (p : OrderPtr) : Prop :=
  P (b.orderPool.get p).clientId (b.orderPool.get p).clientOrderId

/-- The ids of a request. -/
def Request.Names (P : ClientId → OrderId → Prop) : Request → Prop
  | .add clientId clientOrderId _ _ _ _ => P clientId clientOrderId
  | .cancel clientId orderId _ => P clientId orderId

/-- The ids of every resting order and of every response have the property, and so have those
of the first order of every level, in use or not. -/
structure Owned (P : ClientId → OrderId → Prop) (b : MEOrderBook) : Prop where
  orders : ∀ p, b.orderPool.Live p → b.Names P p
  firsts : ∀ ℓ p, (b.ordersAtPricePool.get ℓ).firstMeOrder = some p → b.Names P p
  responses : ∀ m ∈ b.clientResponses, P m.msg.clientId m.msg.clientOrderId

theorem Owned.mono (h : Owned P b) (hP : ∀ c k, P c k → P' c k) : Owned P' b where
  orders p hp := hP _ _ (h.orders p hp)
  firsts ℓ p hp := hP _ _ (h.firsts ℓ p hp)
  responses m hm := hP _ _ (h.responses m hm)

theorem owned_fresh (P : ClientId → OrderId → Prop) (strict : Bool) : Owned P (fresh strict) where
  orders _ h := by simp [fresh, MemPool.Live, MemPool.ofSize] at h
  firsts _ _ h := by cases h
  responses _ h := by cases h

theorem Names.of_content (h : b.Names P q) (hc : b'.content q = b.content q) : b'.Names P q := by
  unfold Names
  rw [view_of_content MEOrder.clientId hc, view_of_content MEOrder.clientOrderId hc]
  exact h

/-- After a removal the first order of a level is the one it was, or one that rests. -/
theorem firsts_removeOrder (hb : HeapInv b ring) (h : removeOrder (some p) b = .ok u b')
    (hq : (b'.ordersAtPricePool.get ℓ).firstMeOrder = some q) :
    (b.ordersAtPricePool.get ℓ).firstMeOrder = some q ∨ b.orderPool.Live q := by
  obtain ⟨hlive, -, -, b₁, hu, rfl⟩ := removeOrder_ok.mp h
  rcases unlinkOrder_cases hb hlive with ⟨-, he⟩ | ⟨-, a, c, ℓ', -, -, -, -, ⟨hc, -⟩, he⟩
  · rw [he] at hu
    obtain ⟨ℓ', b₂, -, hul, -, -, rfl⟩ := removeOrdersAtPrice_ok.mp hu
    have hf := (relinks_unlinkLevel _ _ _).of_ok hul
    left
    rw [← hf.levelFirst ℓ, ← hq]
    simp [dropped]
  · rw [he] at hu
    cases hu
    have hlevel : ((b.unlinked p a c ℓ').ordersAtPricePool.get ℓ).firstMeOrder = some q := hq
    rw [level_unlinked] at hlevel
    split_ifs at hlevel
    · cases hlevel
      exact .inr ((hb.member _ _).mp hc).1
    · exact .inl hlevel

theorem Owned.removed (h : Owned P b) (hb : HeapInv b ring) (hr : removeOrder (some p) b = .ok u b')
    (hrem : Removed b b' p) : Owned P b' where
  orders q hq := (h.orders q ((hrem.live_iff q).mp hq).2).of_content (hrem.content q)
  firsts ℓ q hq := by
    rcases firsts_removeOrder hb hr hq with hq | hq
    · exact (h.firsts ℓ q hq).of_content (hrem.content q)
    · exact (h.orders q hq).of_content (hrem.content q)
  responses := by
    rw [show b'.clientResponses = b.clientResponses from congrArg Prod.fst hrem.journal]
    exact h.responses

theorem Owned.report (h : Owned P b) {l : List (Report MEClientResponse)}
    (hl : ∀ m ∈ l, P m.msg.clientId m.msg.clientOrderId) : Owned P (b.reportResponses l) where
  orders := h.orders
  firsts := h.firsts
  responses m hm := (List.mem_append.mp hm).elim (h.responses m) (hl m)

theorem Owned.update (h : Owned P b) (l : List (Report MEMarketUpdate)) : Owned P (b.reportUpdates l) :=
  ⟨h.orders, h.firsts, h.responses⟩

/-- A new order is the first one of a new level, or of none. -/
theorem firsts_placed {b₁ : MEOrderBook} {s : Slot} {o : MEOrder} (h : Placed b b₁ s p o)
    (hq : ((b₁.indexed p o).ordersAtPricePool.get ℓ).firstMeOrder = some q) :
    q = p ∨ (b.ordersAtPricePool.get ℓ).firstMeOrder = some q := by
  have hq₁ : (b₁.ordersAtPricePool.get ℓ).firstMeOrder = some q := hq
  cases h with
  | old slot levels slots asks =>
    rw [levels] at hq₁
    exact .inr hq₁
  | @new n next next' slot free placed =>
    rw [(addOrdersAtPrice_ok placed).levelFirst ℓ] at hq₁
    simp only [opened, MemPool.get_take] at hq₁
    split_ifs at hq₁
    · cases hq₁
      exact .inl rfl
    · exact .inr hq₁

theorem Owned.added {b₁ : MEOrderBook} {s : Slot} {o : MEOrder} (h : Owned P b) (hpl : Placed b b₁ s p o)
    (hadd : Added b (b₁.indexed p o) p o) (ho : P o.clientId o.clientOrderId) : Owned P (b₁.indexed p o) := by
  have hself : (b₁.indexed p o).Names P p := by
    unfold Names
    rw [hadd.view MEOrder.clientId, hadd.view MEOrder.clientOrderId]
    exact ho
  have hother : ∀ q, b.Names P q → (b₁.indexed p o).Names P q := by
    intro q hq
    by_cases he : q = p
    · rw [he]
      exact hself
    · exact hq.of_content (hadd.content q he)
  refine ⟨fun q hq => ?_, fun ℓ q hq => ?_, ?_⟩
  · rcases (hadd.live_iff q).mp hq with rfl | hq
    · exact hself
    · exact hother q (h.orders q hq)
  · rcases firsts_placed hpl hq with rfl | hq
    · exact hself
    · exact hother q (h.firsts ℓ q hq)
  · rw [show (b₁.indexed p o).clientResponses = b.clientResponses from congrArg Prod.fst hadd.journal]
    exact h.responses

/-- A fill names the incoming order and the first order of the best level. -/
theorem Owned.filled (h : Owned P b) (hx : P x.clientId x.clientOrderId) {best : MEOrderBook → Option LevelPtr}
    {stop : Price → Bool} (ht : Turn best stop b leaves p) : Owned P (b.filled x p leaves) := by
  have hview : ∀ q, b.Names P q → (b.filled x p leaves).Names P q := fun q hq => by
    unfold Names
    rw [view_filled x q MEOrder.clientId, view_filled x q MEOrder.clientOrderId]
    exact hq
  obtain ⟨ℓ, -, -, hfirst⟩ := ht.first
  refine ⟨fun q hq => hview q (h.orders q ((live_filled x q).mp hq)), fun ℓ q hq => hview q (h.firsts ℓ q hq), ?_⟩
  intro m hm
  rw [filled_clientResponses] at hm
  rcases List.mem_append.mp hm with hm | hm
  · exact h.responses m hm
  · rw [fillResponses, List.mem_cons, List.mem_singleton] at hm
    rcases hm with rfl | rfl
    · exact hx
    · exact h.firsts ℓ p hfirst

/-- Between two calls, and while an order is matched. -/
def OwnedBy (P : ClientId → OrderId → Prop) (b : MEOrderBook) (_ : Slot → List OrderPtr) (phase : Option (Incoming × Qty)) :
    Prop :=
  Owned P b ∧ ∀ x leaves, phase = some (x, leaves) → P x.clientId x.clientOrderId

theorem keepsTurns_owned (P : ClientId → OrderId → Prop) : KeepsTurns (OwnedBy P) where
  fill := by
    rintro b ring x leaves p hb ⟨h, hx⟩ hside hturn hopen
    refine ⟨h.filled (hx x leaves rfl) hturn, ?_⟩
    rintro _ _ ⟨⟩
    exact hx x leaves rfl
  fillAll := by
    rintro b ring x leaves p b' hb ⟨h, hx⟩ hside hturn hfull hrem hr hb'
    refine ⟨(h.filled (hx x leaves rfl) hturn).removed (heap_filled hb x p leaves) hrem hr, ?_⟩
    rintro _ _ ⟨⟩
    exact hx x leaves rfl

theorem keeps_owned (P : ClientId → OrderId → Prop) : Keeps (fun _ r => r.Names P) (OwnedBy P) where
  toKeepsTurns := keepsTurns_owned P
  accept := by
    rintro b ring clientId clientOrderId tickerId side price qty x hb ⟨h, -⟩ hg rfl
    refine ⟨⟨h.orders, h.firsts, fun m hm => ?_⟩, ?_⟩
    · rcases List.mem_append.mp hm with hm | hm
      · exact h.responses m hm
      · rw [List.mem_singleton.mp hm]
        exact hg
    · rintro _ _ ⟨⟩
      exact hg
  done := by
    rintro b ring x hb ⟨h, -⟩
    exact ⟨h, nofun⟩
  rest := by
    rintro b ring x leaves p b₁ s o hb ⟨h, hx⟩ hne hex hs ho hpl hadd hb₁
    have hkey : P o.clientId o.clientOrderId := by
      rw [ho]
      exact hx x leaves rfl
    exact ⟨(h.added hpl hadd hkey).update _, nofun⟩
  reject := by
    rintro b ring clientId orderId tickerId hb ⟨h, -⟩ hg
    refine ⟨h.report fun m hm => ?_, nofun⟩
    rw [List.mem_singleton.mp hm]
    exact hg
  cancel := by
    rintro b ring clientId orderId tickerId p b₁ hb ⟨h, -⟩ hg hi hr hrem hb₁
    refine ⟨((h.removed hb hr hrem).update _).report fun m hm => ?_, nofun⟩
    rw [List.mem_singleton.mp hm]
    exact hg

/-- A book whose heap is in order and that names nobody else. -/
structure Sound (P : ClientId → OrderId → Prop) (b : MEOrderBook) : Prop where
  heap : ∃ ring, HeapInv b ring
  bids : b.bidsAtPrice = none
  owned : Owned P b

theorem sound_fresh (P : ClientId → OrderId → Prop) (strict : Bool) : Sound P (fresh strict) where
  heap := ⟨_, heap_fresh strict⟩
  bids := rfl
  owned := owned_fresh P strict

/-- One call for a client keeps the book sound. -/
theorem Sound.call (h : Sound P b) (hr : r.Names P) (hcall : MEOrderBook.call r b = .ok () b') : Sound P b' := by
  obtain ⟨⟨ring, hb⟩, hbids, howned⟩ := h
  obtain ⟨ring', hb', howned', -⟩ := (keeps_owned P).returns hb hbids ⟨howned, nofun⟩ hr hcall
  obtain ⟨hheap, hbids'⟩ := heap_call ⟨⟨ring, hb⟩, hbids⟩ hcall
  exact ⟨hheap, hbids', howned'⟩

/-- A call that stops has sent its responses to clients with the property. -/
theorem Sound.responses_of_error (h : Sound P b) (hr : r.Names P) {e : Fault} (hcall : MEOrderBook.call r b = .error e b') :
    ∀ m ∈ b'.clientResponses, P m.msg.clientId m.msg.clientOrderId := by
  obtain ⟨⟨ring, hb⟩, hbids, howned⟩ := h
  obtain ⟨b₁, ring₁, phase, -, ⟨howned₁, hphase⟩, hend⟩ := (keeps_owned P).stops hb hbids ⟨howned, nofun⟩ hr hcall
  rcases hend with hsame | ⟨x, leaves, p, hx, -, hturn, hsame⟩
  · rw [show b'.clientResponses = b₁.clientResponses from congrArg Prod.fst hsame]
    exact howned₁.responses
  · rw [show b'.clientResponses = (b₁.filled x p leaves).clientResponses from congrArg Prod.fst hsame]
    exact (howned₁.filled (hphase x leaves hx) hturn).responses

theorem Sound.mono (h : Sound P b) (hP : ∀ c k, P c k → P' c k) : Sound P' b where
  heap := h.heap
  bids := h.bids
  owned := h.owned.mono hP

end TradingEcosystem.MEOrderBook
