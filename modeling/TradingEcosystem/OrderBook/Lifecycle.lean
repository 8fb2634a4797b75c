import TradingEcosystem.OrderBook.Tidy

/-! The life of an order in the responses about it: accepted, filled in parts, and ended
by its last fill or by a cancel. A block of the order pool may outlive its order. -/
namespace TradingEcosystem.MEOrderBook
open Program Runs
variable {b b' : MEOrderBook} {ring : Slot → List OrderPtr} {p q : OrderPtr} {x : Incoming} {leaves : Qty} {n no : Nat}
  {strict : Bool} {rs : List Request} {l : List (Report MEClientResponse)} {m : Report MEClientResponse}

/-- What the responses about an order have said of it so far. -/
inductive Stage where
  | unheard
  | working (leaves : Qty)
  | ended
  deriving DecidableEq

namespace Stage

/-- The stage of an order that has `leaves` left. -/
def left (leaves : Qty) : Stage := if leaves = 0 then .ended else .working leaves

/-- The stage after one more response, if the response may come at this stage. -/
def next : Stage → MEClientResponse → Option Stage
  | .unheard, r => if r.type = .ACCEPTED then some (left r.leavesQty) else none
  | .working leaves, r =>
    if r.type = .FILLED ∧ r.execQty ≠ 0 ∧ r.execQty ≤ leaves ∧ r.leavesQty = leaves - r.execQty then some (left r.leavesQty)
    else if r.type = .CANCELED then some .ended
    else none
  | .ended, _ => none

end Stage

/-- Follows the responses about the order of the `n`-th `add` call. -/
def lifecycle (n : Nat) (l : List (Report MEClientResponse)) : Option Stage :=
  l.foldlM (fun s m => if m.about = some n then s.next m.msg else some s) .unheard

/-- The responses about every order come in an order that its life allows. -/
def Lived (b : MEOrderBook) : Prop := ∀ n, (lifecycle n b.clientResponses).isSome

theorem lifecycle_concat (n : Nat) (l : List (Report MEClientResponse)) (m : Report MEClientResponse) :
    lifecycle n (l ++ [m]) = if m.about = some n then (lifecycle n l).bind (Stage.next · m.msg) else lifecycle n l := by
  rw [lifecycle, List.foldlM_append]
  simp only [List.foldlM_cons, List.foldlM_nil, bind_pure]
  rw [← lifecycle]
  split_ifs <;> cases lifecycle n l <;> rfl

/-- A response that may come at this stage moves its own order on, and no other one. -/
private theorem lifecycle_concat_about {s s' : Stage} (habout : m.about = some no) (hs : lifecycle no l = some s)
    (hnext : s.next m.msg = some s') (n : Nat) : lifecycle n (l ++ [m]) = if n = no then some s' else lifecycle n l := by
  rw [lifecycle_concat]
  by_cases h : n = no
  · rw [if_pos h, if_pos (habout.trans (congrArg some h.symm)), h, hs]
    exact hnext
  · rw [if_neg h, if_neg fun e => h (Option.some.inj (e.symm.trans habout))]

/-- What the responses say of the orders that rest and of the one that is matched. -/
structure Told (b : MEOrderBook) (phase : Option (Incoming × Qty)) : Prop where
  lived : b.Lived
  unheard : ∀ n, b.issued.length ≤ n → lifecycle n b.clientResponses = some .unheard
  resting : ∀ p, b.orderPool.Live p → ∃ n, (b.orderPool.get p).addNo = some n ∧ (b.orderPool.get p).qty ≠ 0 ∧
    lifecycle n b.clientResponses = some (.working (b.orderPool.get p).qty)
  apart : ∀ p q, b.orderPool.Live p → b.orderPool.Live q → (b.orderPool.get p).addNo = (b.orderPool.get q).addNo → p = q
  incoming : ∀ x leaves, phase = some (x, leaves) → x.no < b.issued.length ∧
    (∀ p, b.orderPool.Live p → (b.orderPool.get p).addNo ≠ some x.no) ∧
    lifecycle x.no b.clientResponses = some (.left leaves)

/-- A fill tells the two orders what they have left, and no other order anything. -/
private theorem lifecycle_filled (ht : Told b (some (x, leaves))) (hp : b.orderPool.Live p) (hne : leaves ≠ 0)
    (hn : (b.orderPool.get p).addNo = some no) (n : Nat) : lifecycle n (b.filled x p leaves).clientResponses =
      if n = x.no then some (.left (leaves - b.fillQty p leaves))
      else if n = no then some (.left ((b.orderPool.get p).qty - b.fillQty p leaves))
      else lifecycle n b.clientResponses := by
  obtain ⟨-, hother, hx⟩ := ht.incoming x leaves rfl
  obtain ⟨k, hk, hq, hres⟩ := ht.resting p hp
  obtain rfl := Option.some.inj (hn.symm.trans hk)
  have hxn : x.no ≠ no := fun e => hother p hp (hn.trans (congrArg some e.symm))
  have hfill := fillQty_toNat b p leaves
  have hle : b.fillQty p leaves ≤ leaves ∧ b.fillQty p leaves ≤ (b.orderPool.get p).qty := by
    constructor
    · apply UInt32.le_iff_toNat_le.mpr; omega
    · apply UInt32.le_iff_toNat_le.mpr; omega
  have hpos : b.fillQty p leaves ≠ 0 := fun e => by
    have hl : leaves.toNat ≠ 0 := fun e => hne (UInt32.toNat_inj.mp (e.trans UInt32.toNat_zero.symm))
    have hr : (b.orderPool.get p).qty.toNat ≠ 0 := fun e => hq (UInt32.toNat_inj.mp (e.trans UInt32.toNat_zero.symm))
    rw [e, UInt32.toNat_zero] at hfill
    omega
  have hleft : Stage.left leaves = .working leaves := if_neg hne
  have hstep : ∀ (s : Qty) (r : MEClientResponse), r.type = .FILLED → r.execQty = b.fillQty p leaves →
      b.fillQty p leaves ≤ s → r.leavesQty = s - b.fillQty p leaves →
      (Stage.working s).next r = some (.left (s - b.fillQty p leaves)) := fun s r ht he hs hl => by
    rw [Stage.next, if_pos ⟨ht, by rw [he]; exact hpos, by rw [he]; exact hs, by rw [hl, he]⟩, hl]
  rw [filled_clientResponses, fillResponses, show ∀ a c : Report MEClientResponse, b.clientResponses ++ [a, c] =
    (b.clientResponses ++ [a]) ++ [c] by simp, lifecycle_concat, lifecycle_concat]
  simp only [hn, Option.some.injEq, eq_comm (b := n)]
  by_cases h₁ : n = x.no
  · have h₂ : n ≠ no := fun e => hxn (h₁.symm.trans e)
    rw [if_neg h₂, if_pos h₁, if_pos h₁, h₁, hx, hleft]
    exact hstep leaves _ rfl rfl hle.1 rfl
  · rw [if_neg h₁, if_neg h₁]
    by_cases h₂ : n = no
    · rw [if_pos h₂, if_pos h₂, h₂, hres]
      exact hstep _ _ rfl rfl hle.2 rfl
    · rw [if_neg h₂, if_neg h₂]

/-- So the fill of an order in use is no surprise to either order. -/
private theorem lived_filled (ht : Told b (some (x, leaves))) (hp : b.orderPool.Live p) (hne : leaves ≠ 0) :
    (b.filled x p leaves).Lived := by
  obtain ⟨no, hn, -⟩ := ht.resting p hp
  intro n
  rw [lifecycle_filled ht hp hne hn]
  split_ifs
  · rfl
  · rfl
  · exact ht.lived n

/-- What a fill says holds afterwards if the filled order goes exactly when it is full. -/
private theorem told_filled (ht : Told b (some (x, leaves))) (hp : b.orderPool.Live p) (hne : leaves ≠ 0)
    (hresp : b'.clientResponses = (b.filled x p leaves).clientResponses) (hissued : b'.issued = b.issued)
    (hlive : ∀ q, b'.orderPool.Live q ↔ b.orderPool.Live q ∧ (q = p → (b.orderPool.get p).qty - b.fillQty p leaves ≠ 0))
    (hno : ∀ q, (b'.orderPool.get q).addNo = (b.orderPool.get q).addNo)
    (hqty : ∀ q, (b'.orderPool.get q).qty =
      if q = p then (b.orderPool.get p).qty - b.fillQty p leaves else (b.orderPool.get q).qty) :
    Told b' (some (x, leaves - b.fillQty p leaves)) := by
  obtain ⟨no, hn, hq, hres⟩ := ht.resting p hp
  obtain ⟨hlt, hother, hx⟩ := ht.incoming x leaves rfl
  have hlife := lifecycle_filled ht hp hne hn
  have hnolt : no < b.issued.length := by
    by_contra hge
    rw [ht.unheard no (not_lt.mp hge)] at hres
    cases hres
  refine ⟨?_, fun n hle => ?_, fun q hl => ?_, fun q q' hl hl' he => ?_, fun y leaves' h => ?_⟩
  · intro n
    rw [hresp]
    exact lived_filled ht hp hne n
  · rw [hissued] at hle
    rw [hresp, hlife, if_neg (by omega), if_neg (by omega)]
    exact ht.unheard n hle
  · obtain ⟨hl, hopen⟩ := (hlive q).mp hl
    rw [hresp, hno, hqty]
    by_cases he : q = p
    · subst he
      refine ⟨no, hn, by rw [if_pos rfl]; exact hopen rfl, ?_⟩
      rw [hlife, if_neg (fun e => hother q hp (hn.trans (congrArg some e))), if_pos rfl, if_pos rfl, Stage.left,
        if_neg (hopen rfl)]
    · obtain ⟨k, hk, hkq, hkr⟩ := ht.resting q hl
      refine ⟨k, hk, by rw [if_neg he]; exact hkq, ?_⟩
      have hkx : k ≠ x.no := fun e => hother q hl (hk.trans (congrArg some e))
      have hkn : k ≠ no := fun e => he (ht.apart q p hl hp (hk.trans ((congrArg some e).trans hn.symm)))
      rw [hlife, if_neg hkx, if_neg hkn, if_neg he, hkr]
  · rw [hno, hno] at he
    exact ht.apart q q' ((hlive q).mp hl).1 ((hlive q').mp hl').1 he
  · cases h
    refine ⟨by rw [hissued]; exact hlt, fun q hl => ?_, ?_⟩
    · rw [hno]
      exact hother q ((hlive q).mp hl).1
    · rw [hresp, hlife, if_pos rfl]

/-- A new order is heard of by its acceptance. -/
private theorem told_accepted (ht : Told b none) {clientId : ClientId} {clientOrderId : OrderId} {tickerId : TickerId}
    {side : Side} {price : Price} {qty : Qty} (hx : x = b.incoming clientId clientOrderId tickerId side price) :
    Told (b.accepted x qty) (some (x, qty)) := by
  have hno : x.no = b.issued.length := by rw [hx]; rfl
  have hfresh := ht.unheard _ le_rfl
  have hlife : ∀ n, lifecycle n (b.accepted x qty).clientResponses =
      if n = b.issued.length then some (.left qty) else lifecycle n b.clientResponses := fun n => by
    rw [accepted, reportResponses_clientResponses]
    exact lifecycle_concat_about (congrArg some hno) hfresh rfl n
  have hlen : (b.accepted x qty).issued.length = b.issued.length + 1 := List.length_append
  have hnew : ∀ p, b.orderPool.Live p → (b.orderPool.get p).addNo ≠ some b.issued.length := fun p hp e => by
    obtain ⟨n, hn, -, hr⟩ := ht.resting p hp
    rw [Option.some.inj (hn.symm.trans e), hfresh] at hr
    cases hr
  refine ⟨fun n => ?_, fun n hle => ?_, fun p hp => ?_, ht.apart, fun y leaves h => ?_⟩
  · rw [hlife]
    split_ifs
    · rfl
    · exact ht.lived n
  · rw [hlen] at hle
    rw [hlife, if_neg (by omega)]
    exact ht.unheard n (by omega)
  · obtain ⟨n, hn, hq, hr⟩ := ht.resting p hp
    have hne : n ≠ b.issued.length := fun e => hnew p hp (hn.trans (congrArg some e))
    exact ⟨n, hn, hq, by rw [hlife, if_neg hne]; exact hr⟩
  · cases h
    refine ⟨by rw [hno, hlen]; exact Nat.lt_succ_self _, fun p hp => by rw [hno]; exact hnew p hp, ?_⟩
    rw [hno, hlife]
    exact if_pos rfl

/-- What is left of the order that was matched rests, and the responses have said so already. -/
private theorem told_rest (ht : Told b (some (x, leaves))) (hne : leaves ≠ 0) {o : MEOrder} (hadd : Added b b' p o)
    (hno : o.addNo = some x.no) (hqty : o.qty = leaves) (l : List (Report MEMarketUpdate)) :
    Told (b'.reportUpdates l) none := by
  obtain ⟨-, hother, hx⟩ := ht.incoming x leaves rfl
  have hj := hadd.journal
  simp only [journal, Prod.mk.injEq] at hj
  have hself : (b'.orderPool.get p).addNo = some x.no ∧ (b'.orderPool.get p).qty = leaves :=
    ⟨(hadd.view MEOrder.addNo).trans hno, (hadd.view MEOrder.qty).trans hqty⟩
  have hold : ∀ q, b.orderPool.Live q → (b'.orderPool.get q).addNo = (b.orderPool.get q).addNo ∧
      (b'.orderPool.get q).qty = (b.orderPool.get q).qty := fun q hq =>
    ⟨view_of_content _ (hadd.content q (hadd.ne hq)), view_of_content _ (hadd.content q (hadd.ne hq))⟩
  refine ⟨fun n => ?_, fun n hle => ?_, fun q hq => ?_, fun q q' hq hq' he => ?_, fun y leaves e => by cases e⟩
  · rw [reportUpdates_clientResponses, hj.1]
    exact ht.lived n
  · rw [reportUpdates_issued, hj.2.2.1] at hle
    rw [reportUpdates_clientResponses, hj.1]
    exact ht.unheard n hle
  · rw [reportUpdates_clientResponses, hj.1, reportUpdates_orderPool]
    rcases (hadd.live_iff q).mp hq with rfl | hl
    · refine ⟨x.no, hself.1, by rw [hself.2]; exact hne, ?_⟩
      rw [hself.2, hx, Stage.left, if_neg hne]
    · rw [(hold q hl).1, (hold q hl).2]
      exact ht.resting q hl
  · rw [reportUpdates_orderPool] at he
    rcases (hadd.live_iff q).mp hq with rfl | hl <;> rcases (hadd.live_iff q').mp hq' with rfl | hl'
    · rfl
    · exact absurd ((hold q' hl').1.symm.trans (he.symm.trans hself.1)) (hother q' hl')
    · exact absurd ((hold q hl).1.symm.trans (he.trans hself.1)) (hother q hl)
    · exact ht.apart q q' hl hl' ((hold q hl).1.symm.trans (he.trans (hold q' hl').1))

/-- A rejection is about no order. -/
private theorem told_rejected (ht : Told b none) (clientId : ClientId) (orderId : OrderId) (tickerId : TickerId) :
    Told (b.rejected clientId orderId tickerId) none := by
  have hlife : ∀ n, lifecycle n (b.rejected clientId orderId tickerId).clientResponses = lifecycle n b.clientResponses :=
    fun n => by rw [rejected, reportResponses_clientResponses, lifecycle_concat, if_neg (by simp)]
  refine ⟨fun n => ?_, fun n hle => ?_, fun p hp => ?_, ht.apart, fun y leaves e => by cases e⟩
  · rw [hlife]
    exact ht.lived n
  · rw [hlife]
    exact ht.unheard n hle
  · obtain ⟨n, hn, hq, hr⟩ := ht.resting p hp
    exact ⟨n, hn, hq, by rw [hlife]; exact hr⟩

/-- A cancel ends the order it removes, and tells no other order anything. -/
private theorem told_canceled (ht : Told b none) (hr : Removed b b' p) (clientId : ClientId) (orderId : OrderId)
    (tickerId : TickerId) : Told (b'.canceled clientId orderId tickerId (b.orderPool.get p)) none := by
  obtain ⟨no, hn, -, hres⟩ := ht.resting p hr.live
  have hj := hr.journal
  simp only [journal, Prod.mk.injEq] at hj
  have hlife : ∀ n, lifecycle n (b'.canceled clientId orderId tickerId (b.orderPool.get p)).clientResponses =
      if n = no then some .ended else lifecycle n b.clientResponses := fun n => by
    rw [canceled, reportResponses_clientResponses, reportUpdates_clientResponses, hj.1]
    exact lifecycle_concat_about hn hres rfl n
  have hno : ∀ q, (b'.orderPool.get q).addNo = (b.orderPool.get q).addNo := fun q => view_of_content _ (hr.content q)
  refine ⟨fun n => ?_, fun n hle => ?_, fun q hq => ?_, fun q q' hq hq' he => ?_, fun y leaves e => by cases e⟩
  · rw [hlife]
    split_ifs
    · rfl
    · exact ht.lived n
  · have hle' : b.issued.length ≤ n := by rwa [← hj.2.2.1]
    have hne : n ≠ no := fun e => by
      rw [← e, ht.unheard n hle'] at hres
      cases hres
    rw [hlife, if_neg hne]
    exact ht.unheard n hle'
  · obtain ⟨hne, hl⟩ := (hr.live_iff q).mp hq
    obtain ⟨k, hk, hkq, hkr⟩ := ht.resting q hl
    have hqty : (b'.orderPool.get q).qty = (b.orderPool.get q).qty := view_of_content _ (hr.content q)
    have hkn : k ≠ no := fun e => hne (ht.apart q p hl hr.live (hk.trans ((congrArg some e).trans hn.symm)))
    refine ⟨k, (hno q).trans hk, ?_, ?_⟩
    · exact fun e => hkq (hqty.symm.trans e)
    · rw [hlife, if_neg hkn, hkr]
      exact congrArg (fun q => some (Stage.working q)) hqty.symm
  · exact ht.apart q q' ((hr.live_iff q).mp hq).2 ((hr.live_iff q').mp hq').2 ((hno q).symm.trans (he.trans (hno q')))

theorem keeps_told : Keeps (Clean fun _ => False)
    fun b ring phase => Orderly (fun _ => False) True b ring phase ∧ Told b phase where
  accept := by
    rintro b ring clientId clientOrderId tickerId side price qty x hb ⟨hk, ht⟩ hg hx
    exact ⟨keeps_orderly.accept hb hk hg hx, told_accepted ht hx⟩
  fill := by
    rintro b ring x leaves p hb ⟨hk, ht⟩ hside hturn hopen
    have hp : b.orderPool.Live p := by
      obtain ⟨l, htidy, -⟩ := hk
      exact (htidy.of_turn hb hturn).1
    refine ⟨keeps_orderly.fill hb hk hside hturn hopen,
      told_filled ht hp hturn.unfilled rfl rfl (fun q => ?_) (fun q => view_filled x q MEOrder.addNo) fun q => ?_⟩
    · rw [live_filled]
      exact (and_iff_left fun _ => hopen).symm
    · rw [get_filled]
      split_ifs <;> rfl
  fillAll := by
    rintro b ring x leaves p b' hb ⟨hk, ht⟩ hside hturn hfull hrem hr hb'
    have hp : b.orderPool.Live p := by
      obtain ⟨l, htidy, -⟩ := hk
      exact (htidy.of_turn hb hturn).1
    have hj := hr.journal
    simp only [journal, Prod.mk.injEq] at hj
    refine ⟨keeps_orderly.fillAll hb hk hside hturn hfull hrem hr hb',
      told_filled ht hp hturn.unfilled hj.1 hj.2.2.1 (fun q => ?_) (fun q => ?_) fun q => ?_⟩
    · rw [hr.live_iff, live_filled, hfull]
      simp [and_comm]
    · rw [view_of_content MEOrder.addNo (hr.content q), view_filled x q MEOrder.addNo]
    · rw [view_of_content MEOrder.qty (hr.content q), get_filled]
      split_ifs <;> rfl
  done := by
    rintro b ring x hb ⟨hk, ht⟩
    exact ⟨keeps_orderly.done hb hk, ht.lived, ht.unheard, ht.resting, ht.apart, fun y leaves e => by cases e⟩
  rest := by
    rintro b ring x leaves p b₁ s o hb ⟨hk, ht⟩ hne hex hs ho hpl hadd hb₁
    exact ⟨keeps_orderly.rest hb hk hne hex hs ho hpl hadd hb₁,
      told_rest ht hne hadd (congrArg MEOrder.addNo ho) (congrArg MEOrder.qty ho) _⟩
  reject := by
    rintro b ring clientId orderId tickerId hb ⟨hk, ht⟩ hg
    exact ⟨keeps_orderly.reject hb hk trivial, told_rejected ht clientId orderId tickerId⟩
  cancel := by
    rintro b ring clientId orderId tickerId p b₁ hb ⟨hk, ht⟩ hg hp hrem hr hb₁
    exact ⟨keeps_orderly.cancel hb hk trivial hp hrem hr hb₁, told_canceled ht hr clientId orderId tickerId⟩

/-- In a run whose remainders join no level of another side, every order lives as the
responses about it say, also where the last call stopped. -/
theorem run_lived (h : Observes call (Clean fun _ => False) (fresh strict) rs b) : b.Lived := by
  have hfresh : Told (fresh strict) none :=
    ⟨fun _ => rfl, fun _ _ => rfl, fun p hp => by simp [fresh, MemPool.Live, MemPool.ofSize] at hp,
      fun p q hp => by simp [fresh, MemPool.Live, MemPool.ofSize] at hp, nofun⟩
  have h₀ : Orderly (fun _ => False) True (fresh strict) (fun _ => []) none ∧ Told (fresh strict) none :=
    ⟨⟨[], tidy_fresh _ strict, nofun⟩, hfresh⟩
  cases h with
  | done run =>
    obtain ⟨ring, -, -, ht⟩ := keeps_told.run h₀ run
    exact ht.lived
  | @stopped rs s b r e run ok stops =>
    obtain ⟨ring, hb, hk⟩ := keeps_told.run h₀ run
    obtain ⟨b₁, ring₁, phase, hb₁, ⟨⟨l, htidy, -⟩, ht⟩, hend⟩ := keeps_told.stops hb (run_bids run).1 hk ok stops
    rcases hend with he | ⟨x, leaves, p, rfl, -, hturn, he⟩
    · have hresp : b.clientResponses = b₁.clientResponses := congrArg Prod.fst he
      intro n
      rw [hresp]
      exact ht.lived n
    · have hresp : b.clientResponses = (b₁.filled x p leaves).clientResponses := congrArg Prod.fst he
      intro n
      rw [hresp]
      exact lived_filled ht (htidy.of_turn hb₁ hturn).1 hturn.unfilled n

/-- An order that is filled twice, and one that is cancelled after a fill. -/
def filledTwice : List Request :=
  [.add 0 0 0 .SELL 100 5, .add 1 1 0 .BUY 101 2, .add 2 2 0 .SELL 101 4, .add 3 3 0 .BUY 102 4, .cancel 2 2 0]

theorem run_lived_filledTwice : ∃ b, Reaches call (Clean fun _ => False) (fresh true) filledTwice b ∧ b.Lived ∧
    lifecycle 0 b.clientResponses = some .ended ∧ lifecycle 2 b.clientResponses = some .ended := by
  obtain ⟨b, hrun, h₀, h₂⟩ : ∃ b, Reaches call (Clean fun _ => False) (fresh true) filledTwice b ∧
      lifecycle 0 b.clientResponses = some .ended ∧ lifecycle 2 b.clientResponses = some .ended :=
    exists_guardedRun true _ _ (by decide +kernel)
  exact ⟨b, hrun, run_lived (.done hrun), h₀, h₂⟩

/-- The last order of a level to sell is one to buy, so its cancel leaves the best pointer at
the freed level; the next order to buy is matched with the cancelled one. -/
theorem cancelled_order_filled : ∃ b, Reaches call (fun _ _ => True) (fresh false)
    [.add 0 0 0 .SELL 256 5, .add 1 1 0 .BUY 0 3, .cancel 0 0 0, .cancel 1 1 0, .add 2 2 0 .BUY 10 2] b ∧ ¬ b.Lived := by
  obtain ⟨b, hrun, hlife⟩ := exists_run false
    [.add 0 0 0 .SELL 256 5, .add 1 1 0 .BUY 0 3, .cancel 0 0 0, .cancel 1 1 0, .add 2 2 0 .BUY 10 2]
    (fun b => lifecycle 1 b.clientResponses = none) (by decide +kernel)
  refine ⟨b, hrun, fun h => ?_⟩
  have h₁ := h 1
  rw [hlife] at h₁
  cases h₁

end TradingEcosystem.MEOrderBook
