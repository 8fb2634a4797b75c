import TradingEcosystem.OrderBook.Rules

/-! The market order id of an order in the messages about it. `add` draws it with 64 bits,
and `checkForMatch` passes it on with 32. -/
namespace TradingEcosystem.MEOrderBook
open Program Runs
variable {b b' : MEOrderBook} {p : OrderPtr} {u : Unit} {r : Request} {strict : Bool} {rs : List Request} {x : Incoming}
  {qty leaves leaves' : Qty} {no : Nat}

/-- Every message about an order carries the id drawn for it, and responses about two
orders carry two ids. The order of the `n`-th `add` call has the `n`-th drawn id. -/
structure OneIdEach (b : MEOrderBook) : Prop where
  responses : ∀ m ∈ b.clientResponses, ∀ n, m.about = some n → b.issued[n]? = some m.msg.marketOrderId
  updates : ∀ m ∈ b.marketUpdates, ∀ n, m.about = some n → b.issued[n]? = some m.msg.orderId
  distinct : ∀ m ∈ b.clientResponses, ∀ m' ∈ b.clientResponses, ∀ n n', m.about = some n → m'.about = some n' →
    n ≠ n' → m.msg.marketOrderId ≠ m'.msg.marketOrderId

/-- The request is to buy, its id does not fit into 32 bits, and it trades with the best ask. -/
def Truncated (b : MEOrderBook) (r : Request) : Prop :=
  ∃ clientId clientOrderId tickerId price qty p, r = .add clientId clientOrderId tickerId .BUY price qty ∧
    2 ^ 32 ≤ b.nextMarketOrderId.toNat ∧ Turn asksAtPrice (tooDear price) b qty p

/-- The responses of `OneIdEach`, which is the part of it that can fail. -/
def Answered (b : MEOrderBook) : Prop :=
  ∀ m ∈ b.clientResponses, ∀ n, m.about = some n → b.issued[n]? = some m.msg.marketOrderId

/-- What always holds of the stored ids and the messages. -/
structure Filed (b : MEOrderBook) : Prop where
  stored : ∀ p n, (b.stamps p).1 = some n → b.issued[n]? = some (b.stamps p).2
  updates : ∀ m ∈ b.marketUpdates, ∀ n, m.about = some n → b.issued[n]? = some m.msg.orderId
  known : ∀ m ∈ b.clientResponses, ∀ n, m.about = some n → n < b.issued.length

/-- A wrong response stays wrong. -/
private theorem answered_before (hf : b.Filed) (hg : b.Grows b') (ha : b'.Answered) : b.Answered := by
  intro m hm n hn
  have hlt := hf.known m hm n hn
  obtain ⟨ids, hids⟩ := hg.2
  rw [← ha m (hg.1.subset hm) n hn, ← hids, List.getElem?_append_left hlt]

/-! ## What one request does -/

private theorem filed_of_ledger (hf : b.Filed) (h : ledger b' = ledger b) : b'.Filed := by
  simp only [ledger, journal, Prod.mk.injEq] at h
  obtain ⟨hs, hr, hu, hi, -⟩ := h
  refine ⟨?_, ?_, ?_⟩
  · rw [hs, hi]; exact hf.stored
  · rw [hu, hi]; exact hf.updates
  · rw [hr, hi]; exact hf.known

private theorem stamps_filled : (b.filled x p leaves).stamps = b.stamps := by
  funext q
  rw [stamps, view_filled x q MEOrder.addNo, view_filled x q MEOrder.marketOrderId]
  rfl

private theorem lt_issued {id : OrderId} (h : b.issued[no]? = some id) : no < b.issued.length :=
  (List.getElem?_eq_some_iff.mp h).1

/-- The messages of a fill: only the response to the incoming order carries another id
than the drawn one. -/
private theorem filed_filled (hf : b.Filed) (hx : b.issued[x.no]? = some x.id) : (b.filled x p leaves).Filed := by
  have hp : ∀ n, (b.orderPool.get p).addNo = some n → b.issued[n]? = some (b.orderPool.get p).marketOrderId := hf.stored p
  refine ⟨by rw [stamps_filled, filled_issued]; exact hf.stored, fun m hm n hn => ?_, fun m hm n hn => ?_⟩
  · rw [filled_marketUpdates, fillUpdates, List.mem_append] at hm
    rcases hm with hm | hm
    · exact hf.updates m hm n hn
    · rcases List.mem_pair.mp hm with rfl | rfl
      · cases hn
      · rw [filled_issued, hp n hn]
        split_ifs <;> rfl
  · rw [filled_clientResponses, fillResponses, List.mem_append] at hm
    rcases hm with hm | hm
    · exact hf.known m hm n hn
    · rcases List.mem_pair.mp hm with rfl | rfl
      · cases hn; exact lt_issued hx
      · exact lt_issued (hp n hn)

private theorem answered_filled (hf : b.Filed) (ha : b.Answered) (hx : b.issued[x.no]? = some x.id)
    (hid : x.fillId = x.id) : (b.filled x p leaves).Answered := by
  intro m hm n hn
  rw [filled_clientResponses, fillResponses, List.mem_append] at hm
  rcases hm with hm | hm
  · exact ha m hm n hn
  · rcases List.mem_pair.mp hm with rfl | rfl
    · cases hn
      rw [filled_issued, hx, hid]
    · exact hf.stored p n hn

private theorem answered_of_ledger (ha : b.Answered) (h : ledger b' = ledger b) : b'.Answered := by
  simp only [ledger, journal, Prod.mk.injEq] at h
  rw [Answered, h.2.1, h.2.2.2.1]
  exact ha

variable {clientId : ClientId} {clientOrderId : OrderId} {tickerId : TickerId} {side : Side} {price : Price}

private theorem accepted_drawn (qty : Qty) (hf : b.Filed)
    (hx : x = b.incoming clientId clientOrderId tickerId side price) :
    (b.accepted x qty).Filed ∧ (b.accepted x qty).issued[x.no]? = some x.id ∧
      (b.Answered → (b.accepted x qty).Answered) := by
  have hissued : (b.accepted x qty).issued = b.issued ++ [x.id] := by rw [hx]; rfl
  have hresponses : ∃ m, m.about = some x.no ∧ m.msg.marketOrderId = x.id ∧
      (b.accepted x qty).clientResponses = b.clientResponses ++ [m] := ⟨_, rfl, rfl, rfl⟩
  obtain ⟨m₀, habout, hmid, hresponses⟩ := hresponses
  have hlast : (b.accepted x qty).issued[x.no]? = some x.id := by
    have hno : x.no = b.issued.length := by rw [hx]; rfl
    rw [hissued, hno]
    exact List.getElem?_concat_length
  have hold : ∀ {n id}, b.issued[n]? = some id → (b.accepted x qty).issued[n]? = some id := fun h => by
    rw [hissued, List.getElem?_append_left (lt_issued h), h]
  refine ⟨⟨fun p n hn => hold (hf.stored p n hn), fun m hm n hn => hold (hf.updates m hm n hn), fun m hm n hn => ?_⟩, hlast,
    fun ha m hm n hn => ?_⟩
  · rw [hresponses, List.mem_append, List.mem_singleton] at hm
    rcases hm with hm | rfl
    · have hlt := hf.known m hm n hn
      rw [hissued, List.length_append]
      omega
    · rw [habout] at hn
      cases hn
      exact lt_issued hlast
  · rw [hresponses, List.mem_append, List.mem_singleton] at hm
    rcases hm with hm | rfl
    · exact hold (ha m hm n hn)
    · rw [habout] at hn
      cases hn
      rw [hlast, hmid]

private theorem ledger_trade (hs : b.strict = true → b.orderPool.Live p) :
    ledger (final (x.trade (some p) leaves b)) = ledger (b.filled x p leaves) := by
  have hq := quiet_removeOrder (some p) (b.filled x p leaves)
  rw [trade_apply x hs]
  split_ifs
  · cases hr : removeOrder (some p) (b.filled x p leaves) with
    | ok u b' => rw [hr] at hq; exact hq
    | error e b' => rw [hr] at hq; exact hq
  · rfl

/-- What the end of an `add` keeps: the ids, and `Answered` as far as it held. -/
private def Settled (x : Incoming) (good : Prop) (b : MEOrderBook) : Prop :=
  b.Filed ∧ b.issued[x.no]? = some x.id ∧ (good → b.Answered)

private theorem settled_of_ledger {good : Prop} (hb : b.Settled x good) (h : ledger b' = ledger b) :
    b'.Settled x good := by
  have hi : b'.issued = b.issued := congrArg (fun l => l.2.2.2.1) h
  exact ⟨filed_of_ledger hb.1 h, by rw [hi]; exact hb.2.1, fun g => answered_of_ledger (hb.2.2 g) h⟩

private theorem settled_rest {good : Prop} : Frame (Preserves (Settled x good)) (x.rest leaves) := by
  have hq : ∀ {α : Type} {y : BookM α}, Quiet y → Frame (Preserves (Settled x good)) y := fun h =>
    h.mono fun _ _ e hb => settled_of_ledger hb e
  refine .bind (hq (quiet_getNextPriority _)) fun prio => .bind ?_ fun p => .bind (hq (quiet_addOrder _)) fun _ => ?_
  · intro b hb
    rcases allocateOrder_final _ b with he | ⟨p, next, he⟩
    · rwa [he]
    · rw [he]
      refine ⟨⟨fun q n hn => ?_, hb.1.updates, hb.1.known⟩, hb.2⟩
      rw [stamps, taken, MemPool.get_take] at hn ⊢
      split_ifs at hn ⊢
      · cases hn
        exact hb.2.1
      · exact hb.1.stored q n hn
  · rintro b ⟨hf, hx, ha⟩
    refine ⟨⟨hf.stored, fun m hm n hn => ?_, hf.known⟩, hx, ha⟩
    rcases List.mem_append.mp hm with hm | hm
    · exact hf.updates m hm n hn
    · rw [List.mem_singleton] at hm
      subst hm
      cases hn
      exact hx

/-- An `add` answers with the drawn id if `match` gets that id, or is never called. -/
private theorem settled_add {good : Prop} (hx : x = b.incoming clientId clientOrderId tickerId side price)
    (hbids : b.bidsAtPrice = none) (hf : b.Filed)
    (hgood : good → b.Answered ∧ (x.fillId = x.id ∨ ∀ p, x.side = .BUY → ¬ Turn asksAtPrice (tooDear x.price) b qty p)) :
    (final (add clientId clientOrderId tickerId side price qty b)).Settled x good := by
  obtain ⟨hfiled, hdrawn, hans⟩ := accepted_drawn qty hf hx
  have htrade : ∀ b₁ leaves p, Settled x good b₁ ∧ (good → x.fillId = x.id ∨ (b₁ = b.accepted x qty ∧ leaves = qty)) →
      x.side = .BUY → Turn asksAtPrice (tooDear x.price) b₁ leaves p →
      Settled x good (final (x.trade (some p) leaves b₁)) ∧ (good → x.fillId = x.id) := by
    intro b₁ leaves p ⟨hset, hcase⟩ hside hturn
    have hid : good → x.fillId = x.id := by
      intro g
      rcases hcase g with h | ⟨hb₁, hleaves⟩
      · exact h
      rw [hb₁, hleaves] at hturn
      rcases (hgood g).2 with h | h
      · exact h
      · exact absurd ⟨hturn.unfilled, hturn.first, hturn.checked, hturn.meets⟩ (h p hside)
    refine ⟨settled_of_ledger ?_ (ledger_trade hturn.checked), hid⟩
    exact ⟨filed_filled hset.1 hset.2.1, hset.2.1, fun g => answered_filled hset.1 (hset.2.2 g) hset.2.1 (hid g)⟩
  refine add_final (K := Settled x good)
    (J := fun b₁ leaves => Settled x good b₁ ∧ (good → x.fillId = x.id ∨ (b₁ = b.accepted x qty ∧ leaves = qty)))
    hx hbids ⟨⟨hfiled, hdrawn, fun g => hans (hgood g).1⟩, fun _ => .inr ⟨rfl, rfl⟩⟩ ?_ ?_
    (fun b leaves h => h.1) (fun b leaves h => settled_rest b h.1)
  · intro b₁ leaves p b' leaves' hj hside hturn h
    have ht := htrade b₁ leaves p hj hside hturn
    rw [h, final_ok] at ht
    exact ⟨ht.1, fun g => .inl (ht.2 g)⟩
  · intro b₁ leaves p e b' hj hside hturn h
    have ht := htrade b₁ leaves p hj hside hturn
    rw [h, final_error] at ht
    exact ht.1

private theorem filed_cancel {orderId : OrderId} (hf : b.Filed) :
    (final (cancel clientId orderId tickerId b)).Filed ∧
      (b.Answered → (final (cancel clientId orderId tickerId b)).Answered) := by
  cases h : cancel clientId orderId tickerId b with
  | error e b' => exact ⟨filed_of_ledger hf (cancel_error h), fun ha => answered_of_ledger ha (cancel_error h)⟩
  | ok u b' =>
    rw [final_ok]
    rcases cancel_ok h with ⟨-, rfl⟩ | ⟨-, -, p, b₁, -, hr, rfl⟩
    · refine ⟨⟨hf.stored, hf.updates, fun m hm n hn => ?_⟩, fun ha m hm n hn => ?_⟩
      · rcases List.mem_append.mp hm with hm | hm
        · exact hf.known m hm n hn
        · rw [List.mem_singleton] at hm; subst hm; cases hn
      · rcases List.mem_append.mp hm with hm | hm
        · exact ha m hm n hn
        · rw [List.mem_singleton] at hm; subst hm; cases hn
    · have hl : ledger b₁ = ledger b := (quiet_removeOrder (some p)).of_ok hr
      have hf₁ := filed_of_ledger hf hl
      have hp : ∀ n, (b.orderPool.get p).addNo = some n → b₁.issued[n]? = some (b.orderPool.get p).marketOrderId := by
        have hs : b₁.stamps p = b.stamps p := congrFun (congrArg Prod.fst hl) p
        have hst := hf₁.stored p
        rw [hs] at hst
        exact hst
      refine ⟨⟨hf₁.stored, fun m hm n hn => ?_, fun m hm n hn => ?_⟩, fun ha m hm n hn => ?_⟩
      · rcases List.mem_append.mp hm with hm | hm
        · exact hf₁.updates m hm n hn
        · rw [List.mem_singleton] at hm; subst hm; exact hp n hn
      · rcases List.mem_append.mp hm with hm | hm
        · exact hf₁.known m hm n hn
        · rw [List.mem_singleton] at hm; subst hm; exact lt_issued (hp n hn)
      · rcases List.mem_append.mp hm with hm | hm
        · exact answered_of_ledger ha hl m hm n hn
        · rw [List.mem_singleton] at hm; subst hm; exact hp n hn

/-- The first fill of a truncated request sends an id that was not drawn for it. -/
private theorem truncated_answers (hx : x = b.incoming clientId clientOrderId tickerId .BUY price) (hf : b.Filed)
    (hid : x.fillId ≠ x.id) (hturn : Turn asksAtPrice (tooDear price) b qty p) :
    ¬ (final (add clientId clientOrderId tickerId .BUY price qty b)).Answered := by
  have hquiet : ∀ b b' : MEOrderBook, journal b' = journal b → b.Grows b' := fun _ _ => grows_of_journal
  obtain ⟨-, hdrawn, -⟩ := accepted_drawn qty hf hx
  have hside : x.side = .BUY := by rw [hx]; rfl
  have hprice : x.price = price := by rw [hx]; rfl
  have ht : Turn asksAtPrice (tooDear price) (b.accepted x qty) qty p :=
    ⟨hturn.unfilled, hturn.first, hturn.checked, hturn.meets⟩
  have hgrows : (final (x.trade (some p) qty (b.accepted x qty))).Grows
      (final (add clientId clientOrderId tickerId .BUY price qty b)) := by
    rw [add_apply hx, matching_eq, bind_assoc, matchAsks, if_pos hside, turns, hprice,
      bind_apply_congr (matchLoop_turn ht), bind_assoc]
    refine Frame.after (fun l => .bind ?_ fun l => .bind ?_ fun l => .ite ?_ (.pure _)) _
    · exact frame_matchLoop hquiet grows_responses grows_updates _ _ _ _ _
    · exact .ite (frame_matchLoop hquiet grows_responses grows_updates _ _ _ _ _) (.pure _)
    · exact frame_rest hquiet grows_updates _ _
  have hl : ledger (final (x.trade (some p) qty (b.accepted x qty))) = ledger ((b.accepted x qty).filled x p qty) :=
    ledger_trade ht.checked
  simp only [ledger, journal, Prod.mk.injEq] at hl
  intro ha
  have hfill : ∀ m ∈ fillResponses x (b.orderPool.get p) qty, ∀ n, m.about = some n →
      (final (add clientId clientOrderId tickerId .BUY price qty b)).issued[n]? = some m.msg.marketOrderId := by
    intro m hm
    refine ha m (hgrows.1.subset ?_)
    rw [hl.2.1, filled_clientResponses]
    exact List.mem_append_right _ hm
  have hsent := hfill _ (List.mem_cons_self ..) x.no rfl
  obtain ⟨ids, hids⟩ := hgrows.2
  rw [← hids, hl.2.2.2.1, filled_issued, List.getElem?_append_left (lt_issued hdrawn), hdrawn] at hsent
  exact hid (Option.some.inj hsent).symm

theorem fillId_eq_iff (x : Incoming) : x.fillId = x.id ↔ x.id.toNat < 2 ^ 32 := by
  rw [← UInt64.toNat_inj, Incoming.fillId, UInt32.toNat_toUInt64, UInt64.toNat_toUInt32]
  have := x.id.toNat_lt
  omega

/-- One request keeps every response right if and only if it is not truncated. -/
theorem answered_call (hbids : b.bidsAtPrice = none) (hf : b.Filed) (ha : b.Answered) :
    (final (call r b)).Answered ↔ ¬ b.Truncated r := by
  cases r with
  | cancel clientId orderId tickerId =>
    exact iff_of_true ((filed_cancel hf).2 ha) fun ⟨_, _, _, _, _, _, h, _⟩ => by cases h
  | add clientId clientOrderId tickerId side price qty =>
    obtain ⟨x, hx⟩ : ∃ x, x = b.incoming clientId clientOrderId tickerId side price := ⟨_, rfl⟩
    have hid : x.id = b.nextMarketOrderId := by rw [hx]; rfl
    constructor
    · rintro h ⟨_, _, _, _, _, p, he, hbig, hturn⟩
      cases he
      refine truncated_answers hx hf ?_ hturn h
      rw [Ne, fillId_eq_iff, hid]
      omega
    · intro h
      have hset : (final (add clientId clientOrderId tickerId side price qty b)).Settled x True :=
        settled_add hx hbids hf fun _ => ⟨ha, ?_⟩
      · exact hset.2.2 trivial
      · rw [fillId_eq_iff, hid]
        refine or_iff_not_imp_left.mpr fun hbig p hside hturn => h ⟨clientId, clientOrderId, tickerId, price, qty, p, ?_⟩
        have hx' : x.side = side ∧ x.price = price := by rw [hx]; exact ⟨rfl, rfl⟩
        rw [hx'.1] at hside
        rw [hx'.2] at hturn
        exact ⟨by rw [hside], by omega, hturn⟩

theorem filed_call (r : Request) (hbids : b.bidsAtPrice = none) (hf : b.Filed) : (final (call r b)).Filed := by
  cases r with
  | add clientId clientOrderId tickerId side price qty =>
    have hset : (final (add clientId clientOrderId tickerId side price qty b)).Settled _ False :=
      settled_add rfl hbids hf False.elim
    exact hset.1
  | cancel clientId orderId tickerId => exact (filed_cancel hf).1

/-! ## Runs -/

/-- Drawn ids differ, so right responses about two orders carry two ids. -/
theorem oneIdEach_iff (hf : b.Filed) (hc : b.Counted) (hlen : b.issued.length < 2 ^ 64) : b.OneIdEach ↔ b.Answered := by
  constructor
  · exact fun h => h.responses
  · intro h
    refine ⟨h, hf.updates, fun m hm m' hm' n n' hn hn' hne he => hne ?_⟩
    have hi := h m hm n hn
    have hi' := h m' hm' n' hn'
    rw [← he, ← hi] at hi'
    exact (List.getElem?_inj (lt_issued hi) (hc.nodup hlen)).mp hi'.symm

private theorem filed_counted_call (r : Request) (hf : b.Filed) (hbids : b.bidsAtPrice = none) (hc : b.Counted) :
    (final (call r b)).Filed ∧ (final (call r b)).bidsAtPrice = none ∧ (final (call r b)).Counted := by
  have hb := frame_bids r b
  simp only [Fixes, Prod.mk.injEq] at hb
  exact ⟨filed_call r hbids hf, hb.1.trans hbids, (counted_call r hc).1⟩

private theorem filed_fresh (strict : Bool) : (fresh strict).Filed := by
  refine ⟨fun p n hn => ?_, fun m hm => ?_, fun m hm => ?_⟩
  · cases hn
  · cases hm
  · cases hm

private theorem run_filed (h : Observes call (fun _ _ => True) (fresh strict) rs b) :
    b.Filed ∧ b.bidsAtPrice = none ∧ b.Counted ∧ b.issued.length ≤ rs.length := by
  refine h.always (I := fun rs b => b.Filed ∧ b.bidsAtPrice = none ∧ b.Counted ∧ b.issued.length ≤ rs.length)
    ⟨filed_fresh strict, rfl, ⟨rfl, rfl⟩, le_rfl⟩ fun rs b r ⟨hf, hbids, hc, hle⟩ _ => ?_
  obtain ⟨hf', hbids', hc'⟩ := filed_counted_call r hf hbids hc
  have hd := (counted_call r hc).2
  exact ⟨hf', hbids', hc', by rw [List.length_append, List.length_singleton]; omega⟩

/-- All messages carry the right ids after the calls of a run, and where its last call
stopped, if and only if no request was truncated. -/
theorem run_oneIdEach_iff (h : Observes call (fun _ _ => True) (fresh strict) rs b) (hlen : rs.length < 2 ^ 64) :
    b.OneIdEach ↔ Observes call (fun b r => ¬ b.Truncated r) (fresh strict) rs b := by
  obtain ⟨hf, -, hc, hle⟩ := run_filed h
  rw [oneIdEach_iff hf hc (by omega)]
  refine h.good_iff (I := fun b => b.Filed ∧ b.bidsAtPrice = none ∧ b.Counted) ⟨filed_fresh strict, rfl, rfl, rfl⟩
    (fun m hm => by cases hm) (fun b r hb => filed_counted_call r hb.1 hb.2.1 hb.2.2) ?_ ?_
  · exact fun b r hb ha => answered_before hb.1 (grows_call r b) ha
  · exact fun b r hb ha => answered_call hb.2.1 hb.1 ha

/-- A resting order that is filled in part, and then full. -/
def twoFills : List Request := [.add 0 0 0 .SELL 100 5, .add 1 1 0 .BUY 100 3, .add 2 2 0 .BUY 101 4]

theorem run_oneIdEach_twoFills : ∃ b, Reaches call (fun _ _ => True) (fresh true) twoFills b ∧
    (b.OneIdEach ↔ Observes call (fun b r => ¬ b.Truncated r) (fresh true) twoFills b) := by
  obtain ⟨b, hrun, -⟩ := exists_run true twoFills (fun _ => True) (by decide +kernel)
  exact ⟨b, hrun, run_oneIdEach_iff (.done hrun) (by decide)⟩

/-- A sale, adds of nothing until the next id needs 33 bits, and a purchase that takes a
part of the sale: the fill of the purchase carries the id of the sale. -/
private theorem truncated_run (n : Nat) (hn : 2 ^ 32 ≤ (UInt64.ofNat (n + 2)).toNat) :
    ∃ b, Reaches call (fun _ _ => True) (fresh true)
      (([.add 0 0 0 .SELL 100 5] ++ List.replicate n (.add 0 0 0 .BUY 0 0)) ++ [.add 1 1 0 .BUY 100 3]) b ∧
      ¬ b.OneIdEach := by
  obtain ⟨b, hrun, ⟨hbest, hfirst, hlevel, hlive⟩, hprice, hqty, hlen⟩ := exists_run true [.add 0 0 0 .SELL 100 5]
    (fun b => (b.asksAtPrice = some 0 ∧ (b.ordersAtPricePool.get 0).firstMeOrder = some 0 ∧
      b.ordersAtPricePool.Live 0 ∧ b.orderPool.Live 0) ∧ (b.orderPool.get 0).price = 100 ∧
      (b.orderPool.get 0).qty = 5 ∧ b.issued.length = 1) (by decide +kernel)
  obtain ⟨b₁, hrun₁, hhold, hlen₁⟩ := run_emptyAdds hrun n
  simp only [holdings, Prod.mk.injEq] at hhold
  obtain ⟨hpool, hlevels, -, -, hasks, -, -, -⟩ := hhold
  rw [← hpool] at hlive hprice hqty
  rw [← hlevels] at hfirst hlevel
  rw [← hasks] at hbest
  have hturn : Turn asksAtPrice (tooDear 100) b₁ 3 0 :=
    ⟨by decide, ⟨0, hbest, fun _ => hlevel, hfirst⟩, fun _ => hlive, by rw [hprice]; decide⟩
  have hcall : ∃ b₂, call (.add 1 1 0 .BUY 100 3) b₁ = .ok () b₂ :=
    ⟨_, add_one rfl hturn (by rw [hqty]; decide)⟩
  obtain ⟨b₂, hcall⟩ := hcall
  refine ⟨b₂, .call hrun₁ trivial hcall, fun h => ?_⟩
  obtain ⟨hf, hbids, hc, -⟩ := run_filed (.done hrun₁)
  have hbig : 2 ^ 32 ≤ b₁.nextMarketOrderId.toNat := by
    rw [hc.2, hlen₁, hlen, show 1 + n + 1 = n + 2 by omega]
    exact hn
  have hne : ¬ (final (call (.add 1 1 0 .BUY 100 3) b₁)).Answered := by
    refine truncated_answers rfl hf ?_ hturn
    rw [Ne, fillId_eq_iff]
    exact not_lt.mpr hbig
  rw [hcall] at hne
  exact hne h.responses

/-- After 2^32 requests an order to buy gets id 2^32 + 1, and its fill is reported under id 1,
which is that of the order it trades with. -/
theorem truncated_id_names_other_order : ∃ b, Reaches call (fun _ _ => True) (fresh true)
    (([.add 0 0 0 .SELL 100 5] ++ List.replicate 4294967295 (.add 0 0 0 .BUY 0 0)) ++ [.add 1 1 0 .BUY 100 3]) b ∧
      ¬ b.OneIdEach :=
  truncated_run 4294967295 (by decide)

end TradingEcosystem.MEOrderBook
