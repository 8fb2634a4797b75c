import TradingEcosystem.MatchingEngine
import TradingEcosystem.OrderBook.Accounting

/-! What a request makes the engine send, and to which book it belongs. The engine has one stream of
responses and one of updates for all its books; each book's part of them is its own. -/
namespace TradingEcosystem.MatchingEngine
open Program Runs MEOrderBook
variable {b b' : MEOrderBook} {e e' : MatchingEngine} {i j : Fin ME_MAX_TICKERS} {r : MEClientRequest} {q : Request} {u : Unit}
  {x : Incoming} {qty leaves : Qty} {guard : MEOrderBook → Request → Prop} {strict : Bool} {rs : List MEClientRequest}

/-- `a` tells the client of `r` what became of `r`: an order is accepted as it was asked for, and a cancel is
done or rejected. -/
structure Answers (r : MEClientRequest) (a : MEClientResponse) : Prop where
  clientId : a.clientId = r.clientId
  clientOrderId : a.clientOrderId = r.orderId
  tickerId : a.tickerId = r.tickerId
  accepted : r.type = .NEW → a.type = .ACCEPTED ∧ a.side = r.side ∧ a.price = r.price ∧ a.execQty = 0 ∧ a.leavesQty = r.qty
  canceled : r.type = .CANCEL → a.type = .CANCELED ∨ a.type = .CANCEL_REJECTED

/-- A response about a fill that `r` caused. -/
structure FilledBy (r : MEClientRequest) (m : MEClientResponse) : Prop where
  new : r.type = .NEW
  filled : m.type = .FILLED
  tickerId : m.tickerId = r.tickerId

/-- The responses to `r`: its answer, and behind it those of the fills it caused. -/
def Block (r : MEClientRequest) (l : List MEClientResponse) : Prop :=
  ∃ a fills, l = a :: fills ∧ Answers r a ∧ ∀ m ∈ fills, FilledBy r m

/-! ## One call -/

/-- The call of a book sends the block of its request, and updates of the request's ticker. -/
structure Sends (r : MEClientRequest) (b b' : MEOrderBook) (l : List (Report MEClientResponse))
    (us : List (Report MEMarketUpdate)) : Prop where
  responses : b'.clientResponses = b.clientResponses ++ l
  updates : b'.marketUpdates = b.marketUpdates ++ us
  block : Block r (l.map Report.msg)
  about : ∀ m ∈ us, m.msg.tickerId = r.tickerId

/-- The matching of an order reports its fills and nothing else, whatever side the order has. -/
theorem matching_sends (h : x.matching qty b = .ok leaves b') : ∃ fills : List Fill,
    b'.clientResponses = b.clientResponses ++ fills.flatMap (Fill.responses x) ∧
    b'.marketUpdates = b.marketUpdates ++ fills.flatMap (Fill.updates x) := by
  by_cases hside : x.side = .BUY ∨ x.side = .SELL
  · obtain ⟨fills, hf⟩ := fills_of_matching hside h
    exact ⟨fills, hf.messages⟩
  · rw [not_or] at hside
    rw [matching_eq, matchAsks, if_neg hside.1, pure_bind, matchBids, if_neg hside.2] at h
    cases h
    exact ⟨[], by simp, by simp⟩

theorem filledBy_responses (hnew : r.type = .NEW) (htick : x.tickerId = r.tickerId) (fills : List Fill) :
    ∀ m ∈ (fills.flatMap (Fill.responses x)).map Report.msg, FilledBy r m := by
  intro m hm
  obtain ⟨m', hm', rfl⟩ := List.mem_map.mp hm
  obtain ⟨f, -, hf⟩ := List.mem_flatMap.mp hm'
  simp only [Fill.responses, List.mem_cons, List.not_mem_nil, or_false] at hf
  rcases hf with rfl | rfl
  · exact ⟨hnew, rfl, htick⟩
  · exact ⟨hnew, rfl, htick⟩

theorem tickerId_updates (fills : List Fill) : ∀ m ∈ fills.flatMap (Fill.updates x), m.msg.tickerId = x.tickerId := by
  intro m hm
  obtain ⟨f, -, hf⟩ := List.mem_flatMap.mp hm
  simp only [Fill.updates, List.mem_cons, List.not_mem_nil, or_false] at hf
  rcases hf with rfl | rfl
  · rfl
  · split_ifs <;> rfl

theorem add_sends (hnew : r.type = .NEW) (h : add r.clientId r.orderId r.tickerId r.side r.price r.qty b = .ok u b') :
    ∃ l us, Sends r b b' l us := by
  obtain ⟨b₁, leaves, hm, hend⟩ := add_ok rfl h
  obtain ⟨fills, hr, hu⟩ := matching_sends hm
  have hanswer : Answers r
      { type := .ACCEPTED, clientId := r.clientId, tickerId := r.tickerId, clientOrderId := r.orderId,
        marketOrderId := b.nextMarketOrderId, side := r.side, price := r.price, execQty := 0, leavesQty := r.qty } :=
    ⟨rfl, rfl, rfl, fun _ => ⟨rfl, rfl, rfl, rfl, rfl⟩, fun hc => absurd (hnew.symm.trans hc) (by decide)⟩
  have hfills := filledBy_responses (x := b.incoming r.clientId r.orderId r.tickerId r.side r.price) hnew rfl fills
  have hupdates : b₁.marketUpdates = b.marketUpdates ++ _ := hu
  rw [accepted, reportResponses_clientResponses, List.append_assoc] at hr
  rcases hend with ⟨-, rfl⟩ | ⟨-, hrest⟩
  · exact ⟨_, _, hr, hupdates, ⟨_, _, rfl, hanswer, hfills⟩, tickerId_updates fills⟩
  · obtain ⟨hr', priority, hu'⟩ := rest_messages hrest
    rw [hupdates, List.append_assoc] at hu'
    refine ⟨_, _, hr'.trans hr, hu', ⟨_, _, rfl, hanswer, hfills⟩, fun m hm => ?_⟩
    rcases List.mem_append.mp hm with hm | hm
    · exact tickerId_updates fills m hm
    · rw [List.mem_singleton.mp hm]
      rfl

theorem cancel_sends (hc : r.type = .CANCEL) (h : cancel r.clientId r.orderId r.tickerId b = .ok u b') :
    ∃ l us, Sends r b b' l us := by
  have hnew : r.type ≠ .NEW := by
    rw [hc]
    decide
  rcases cancel_ok h with ⟨-, rfl⟩ | ⟨-, -, p, b₁, -, hr, rfl⟩
  · refine ⟨_, [], rfl, (List.append_nil _).symm, ⟨_, [], rfl, ⟨rfl, rfl, rfl, fun e => absurd e hnew, fun _ => .inr rfl⟩, by simp⟩, ?_⟩
    simp
  · have hj := (quiet_removeOrder _).journal.of_ok hr
    simp only [Fixes, journal, Prod.mk.injEq] at hj
    refine ⟨[_], [_], congrArg (· ++ _) hj.1, congrArg (· ++ _) hj.2.1,
      ⟨_, [], rfl, ⟨rfl, rfl, rfl, fun e => absurd e hnew, fun _ => .inl rfl⟩, by simp⟩, fun m hm => ?_⟩
    rw [List.mem_singleton.mp hm]

theorem call_sends (hq : bookCall r = some q) (h : call q b = .ok u b') : ∃ l us, Sends r b b' l us := by
  unfold bookCall at hq
  split_ifs at hq with hnew hcancel
  · cases hq
    exact add_sends hnew h
  · cases hq
    exact cancel_sends hcancel h

/-- A request that the engine processes is a call on one book, and what the book sends goes out. -/
theorem processClientRequest_sends (h : processClientRequest r e = .ok u e') :
    ∃ i q b l us, i.val = r.tickerId.toNat ∧ bookCall r = some q ∧ call q (e.tickerOrderBook i) = .ok () b ∧
      Sends r (e.tickerOrderBook i) b l us ∧ e'.tickerOrderBook = Function.update e.tickerOrderBook i b ∧
      e'.clientResponses = e.clientResponses ++ l.map Report.msg ∧ e'.marketUpdates = e.marketUpdates ++ us.map Report.msg := by
  rcases processClientRequest_cases r e with ⟨f, herr⟩ | ⟨i, q, b, hq, hi, ⟨hcall, heq⟩ | ⟨f, -, herr⟩⟩
  · rw [herr] at h
    cases h
  · rw [heq] at h
    cases h
    obtain ⟨l, us, hs⟩ := call_sends hq hcall
    exact ⟨i, q, b, l, us, hi, hq, hcall, hs, rfl, by rw [put, hs.responses, List.drop_left], by rw [put, hs.updates, List.drop_left]⟩
  · rw [herr] at h
    cases h

/-! ## Runs -/

/-- The responses of a run of the engine are the blocks of its requests, one block for each request, in the order
of the requests. No request is left without an answer, and none gets two. -/
theorem run_answered (h : Reaches processClientRequest (fun _ _ => True) (fresh strict) rs e) :
    ∃ blocks, e.clientResponses = blocks.flatten ∧ List.Forall₂ Block rs blocks := by
  induction h with
  | start => exact ⟨[], rfl, .nil⟩
  | @call rs e e' r run ok returns ih =>
    obtain ⟨blocks, hflat, hblocks⟩ := ih
    obtain ⟨i, q, b, l, us, -, -, -, hs, -, hresponses, -⟩ := processClientRequest_sends returns
    refine ⟨blocks ++ [l.map Report.msg], ?_, ?_⟩
    · rw [hresponses, hflat, List.flatten_append, List.flatten_singleton]
    · exact List.rel_append hblocks (.cons hs.block .nil)

/-- Orders for two tickers in turn: the purchase of ticker 1 takes both orders of its book, and the one of ticker 2
stays alone and is cancelled. -/
def inTurn : List MEClientRequest :=
  [{ type := .NEW, clientId := 0, tickerId := 1, orderId := 0, side := .SELL, price := 100, qty := 5 },
   { type := .NEW, clientId := 1, tickerId := 2, orderId := 0, side := .BUY, price := 100, qty := 5 },
   { type := .NEW, clientId := 2, tickerId := 1, orderId := 0, side := .SELL, price := 99, qty := 4 },
   { type := .CANCEL, clientId := 1, tickerId := 2, orderId := 0 },
   { type := .NEW, clientId := 3, tickerId := 1, orderId := 0, side := .BUY, price := 100, qty := 9 },
   { type := .CANCEL, clientId := 0, tickerId := 1, orderId := 0 }]

theorem run_answered_inTurn : ∃ e blocks, Reaches processClientRequest (fun _ _ => True) (fresh true) inTurn e ∧
    e.clientResponses.length = 10 ∧ e.clientResponses = blocks.flatten ∧ List.Forall₂ Block inTurn blocks := by
  obtain ⟨e, hrun, hlen⟩ : ∃ e, Reaches processClientRequest (fun _ _ => True) (fresh true) inTurn e ∧
      e.clientResponses.length = 10 := exists_of_guarded (by decide +kernel)
  obtain ⟨blocks, hflat, hblocks⟩ := run_answered hrun
  exact ⟨e, blocks, hrun, hlen, hflat, hblocks⟩

/-- The calls that book `i` gets of the requests. -/
def requestsFor (i : Fin ME_MAX_TICKERS) (rs : List MEClientRequest) : List Request :=
  (rs.filter fun r => r.tickerId.toNat = i.val).filterMap bookCall

/-- Messages of one ticker, among which are none or all of book `j`. -/
private theorem filter_ticker {M : Type} {tickerId : M → TickerId} {l : List M} {t : TickerId} (h : ∀ m ∈ l, tickerId m = t)
    (j : Nat) : l.filter (fun m => (tickerId m).toNat = j) = if t.toNat = j then l else [] := by
  split_ifs with ht
  · exact List.filter_eq_self.mpr fun m hm => decide_eq_true ((congrArg UInt32.toNat (h m hm)).trans ht)
  · exact List.filter_eq_nil_iff.mpr fun m hm => by simpa [h m hm] using ht

/-- What book `j` has been called with and has sent, next to what the engine has got and has sent. -/
structure Isolated (guard : MEOrderBook → Request → Prop) (strict : Bool) (rs : List MEClientRequest) (e : MatchingEngine)
    (j : Fin ME_MAX_TICKERS) : Prop where
  run : Reaches call guard (MEOrderBook.fresh strict) (requestsFor j rs) (e.tickerOrderBook j)
  responses : e.clientResponses.filter (fun m => m.tickerId.toNat = j.val) = (e.tickerOrderBook j).clientResponses.map Report.msg
  updates : e.marketUpdates.filter (fun m => m.tickerId.toNat = j.val) = (e.tickerOrderBook j).marketUpdates.map Report.msg

theorem Isolated.step (h : Isolated guard strict rs e j) (ok : OnBooks guard e r)
    (returns : processClientRequest r e = .ok u e') : Isolated guard strict (rs ++ [r]) e' j := by
  obtain ⟨i, q, b, l, us, hi, hq, hcall, hs, hbooks, hresponses, hupdates⟩ := processClientRequest_sends returns
  obtain ⟨a, fills, hl, ha, hfills⟩ := hs.block
  have hticker : ∀ m ∈ l.map Report.msg, m.tickerId = r.tickerId := by
    intro m hm
    rw [hl] at hm
    rcases List.mem_cons.mp hm with rfl | hm
    · exact ha.tickerId
    · exact (hfills m hm).tickerId
  have hupdate : ∀ m ∈ us.map Report.msg, m.tickerId = r.tickerId := by
    intro m hm
    obtain ⟨m', hm', rfl⟩ := List.mem_map.mp hm
    exact hs.about m' hm'
  have hrequests : requestsFor j (rs ++ [r]) = requestsFor j rs ++ if r.tickerId.toNat = j.val then [q] else [] := by
    rw [requestsFor, List.filter_append, List.filterMap_append, ← requestsFor]
    split_ifs with hj <;> simp [hj, hq]
  by_cases hj : j = i
  · -- the book of the request
    subst hj
    have hthis : e'.tickerOrderBook j = b := by rw [hbooks, Function.update_self]
    refine ⟨?_, ?_, ?_⟩
    · rw [hrequests, if_pos hi.symm, hthis]
      exact .call h.run (ok j hi q hq) hcall
    · rw [hresponses, List.filter_append, h.responses, filter_ticker hticker, if_pos hi.symm, hthis, hs.responses, List.map_append]
    · rw [hupdates, List.filter_append, h.updates, filter_ticker hupdate, if_pos hi.symm, hthis, hs.updates, List.map_append]
  · -- any other book
    have hne : r.tickerId.toNat ≠ j.val := fun hj' => hj (Fin.ext (hj'.symm.trans hi.symm))
    have hthis : e'.tickerOrderBook j = e.tickerOrderBook j := by rw [hbooks, Function.update_of_ne hj]
    refine ⟨?_, ?_, ?_⟩
    · rw [hrequests, if_neg hne, List.append_nil, hthis]
      exact h.run
    · rw [hresponses, List.filter_append, h.responses, filter_ticker hticker, if_neg hne, List.append_nil, hthis]
    · rw [hupdates, List.filter_append, h.updates, filter_ticker hupdate, if_neg hne, List.append_nil, hthis]

/-- In a run of the engine every book is as if it were alone: it is where the requests for its ticker by themselves bring
a fresh book, and the responses and updates that carry its ticker are, in their order, those that it sends then. -/
theorem run_isolated (h : Reaches processClientRequest (OnBooks guard) (fresh strict) rs e) (j : Fin ME_MAX_TICKERS) :
    Isolated guard strict rs e j := by
  induction h with
  | start => exact ⟨.start, rfl, rfl⟩
  | call run ok returns ih => exact ih.step ok returns

theorem run_isolated_inTurn : ∃ e, Reaches processClientRequest (OnBooks fun _ _ => True) (fresh true) inTurn e ∧
    ∃ j : Fin ME_MAX_TICKERS, requestsFor j inTurn = [.add 1 0 2 .BUY 100 5, .cancel 1 0 2] ∧
      Isolated (fun _ _ => True) true inTurn e j := by
  obtain ⟨e, hrun, -⟩ : ∃ e, Reaches processClientRequest (OnBooks fun _ _ => True) (fresh true) inTurn e ∧ True :=
    exists_of_guarded (by decide +kernel)
  exact ⟨e, hrun, ⟨2, by decide⟩, by decide, run_isolated hrun _⟩

end TradingEcosystem.MatchingEngine
