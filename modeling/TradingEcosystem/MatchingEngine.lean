import TradingEcosystem.OrderBook.Rules

/-! `matching_engine.h`: the engine hands every request to the book of its ticker. -/
namespace TradingEcosystem
open Program Runs MEOrderBook

/-- `clientResponses` and `marketUpdates` are what `sendClientResponse` and `sendMarketUpdate`
were called with, by all books. -/
structure MatchingEngine where
  tickerOrderBook : Fin ME_MAX_TICKERS → MEOrderBook
  clientResponses : List MEClientResponse := []
  marketUpdates : List MEMarketUpdate := []

abbrev EngineM := EStateM Fault MatchingEngine

namespace MatchingEngine
variable {e e' : MatchingEngine} {r : MEClientRequest} {i j : Fin ME_MAX_TICKERS} {b : MEOrderBook} {u : Unit} {f : Fault}

/-- The engine after a call on book `i`, which left the book as `b` and sent what `b` has
more than the book had. -/
def put (e : MatchingEngine) (i : Fin ME_MAX_TICKERS) (b : MEOrderBook) : MatchingEngine where
  tickerOrderBook := Function.update e.tickerOrderBook i b
  clientResponses := e.clientResponses ++
    (b.clientResponses.drop (e.tickerOrderBook i).clientResponses.length).map Report.msg
  marketUpdates := e.marketUpdates ++ (b.marketUpdates.drop (e.tickerOrderBook i).marketUpdates.length).map Report.msg

/-- A call of a method of book `i`. -/
def onBook (i : Fin ME_MAX_TICKERS) (x : BookM Unit) : EngineM Unit := fun e =>
  match x (e.tickerOrderBook i) with
  | .ok _ b => .ok () (e.put i b)
  | .error f b => .error f (e.put i b)

/-- `ticker_order_book_[ticker_id]`; the index is not checked. -/
def orderBook (tickerId : TickerId) : EngineM (Fin ME_MAX_TICKERS) :=
  if h : tickerId.toNat < ME_MAX_TICKERS then pure ⟨tickerId.toNat, h⟩ else throw .outOfRange

def processClientRequest (r : MEClientRequest) : EngineM Unit := do
  let orderBook ← orderBook r.tickerId
  if r.type = .NEW then onBook orderBook (add r.clientId r.orderId r.tickerId r.side r.price r.qty)
  else if r.type = .CANCEL then onBook orderBook (cancel r.clientId r.orderId r.tickerId)
  else throw (.fatal ("Received invalid client-request-type: " ++ clientRequestTypeToString r.type))

/-- An engine as its constructor leaves it. -/
def fresh (strict : Bool) : MatchingEngine where
  tickerOrderBook _ := MEOrderBook.fresh strict

/-- The book call that a request of a known type stands for. -/
def bookCall (r : MEClientRequest) : Option Request :=
  if r.type = .NEW then some (.add r.clientId r.orderId r.tickerId r.side r.price r.qty)
  else if r.type = .CANCEL then some (.cancel r.clientId r.orderId r.tickerId)
  else none

@[simp] theorem put_tickerOrderBook : (e.put i b).tickerOrderBook = Function.update e.tickerOrderBook i b := rfl

theorem onBook_apply (i : Fin ME_MAX_TICKERS) (x : BookM Unit) (e : MatchingEngine) :
    (∃ b, x (e.tickerOrderBook i) = .ok () b ∧ onBook i x e = .ok () (e.put i b)) ∨
      ∃ f b, x (e.tickerOrderBook i) = .error f b ∧ onBook i x e = .error f (e.put i b) := by
  unfold onBook
  cases x (e.tickerOrderBook i) with
  | ok _ b => exact .inl ⟨b, rfl, rfl⟩
  | error f b => exact .inr ⟨f, b, rfl, rfl⟩

/-- A request of a known type for a known ticker is a call on its book. -/
theorem processClientRequest_eq {q : Request} (h : r.tickerId.toNat < ME_MAX_TICKERS) (hq : bookCall r = some q) :
    processClientRequest r e = onBook ⟨r.tickerId.toNat, h⟩ (call q) e := by
  have hb : orderBook r.tickerId e = .ok ⟨r.tickerId.toNat, h⟩ e := by rw [orderBook, dif_pos h]; rfl
  rw [processClientRequest, bind_of_ok hb]
  unfold bookCall at hq
  split_ifs at hq ⊢ <;> cases hq <;> rfl

/-- Any other request stops the engine before a book sees it. -/
theorem processClientRequest_refused (h : ¬ (r.tickerId.toNat < ME_MAX_TICKERS ∧ (bookCall r).isSome)) :
    ∃ f, processClientRequest r e = .error f e := by
  by_cases ht : r.tickerId.toNat < ME_MAX_TICKERS
  · have hb : orderBook r.tickerId e = .ok ⟨r.tickerId.toNat, ht⟩ e := by rw [orderBook, dif_pos ht]; rfl
    have hnone : ¬ (bookCall r).isSome := fun hs => h ⟨ht, hs⟩
    rw [processClientRequest, bind_of_ok hb]
    unfold bookCall at hnone
    split_ifs at hnone ⊢ <;> first | exact absurd rfl hnone | exact ⟨_, rfl⟩
  · have hb : orderBook r.tickerId e = .error .outOfRange e := by rw [orderBook, dif_neg ht]; rfl
    exact ⟨_, bind_of_error hb⟩

/-- What a request does to the engine: nothing, or what a call on one of its books does. -/
theorem processClientRequest_cases (r : MEClientRequest) (e : MatchingEngine) :
    (∃ f, processClientRequest r e = .error f e) ∨
      ∃ i q b, bookCall r = some q ∧ i.val = r.tickerId.toNat ∧
        ((call q (e.tickerOrderBook i) = .ok () b ∧ processClientRequest r e = .ok () (e.put i b)) ∨
          ∃ f, call q (e.tickerOrderBook i) = .error f b ∧ processClientRequest r e = .error f (e.put i b)) := by
  by_cases h : r.tickerId.toNat < ME_MAX_TICKERS ∧ (bookCall r).isSome
  · obtain ⟨q, hq⟩ := Option.isSome_iff_exists.mp h.2
    have heq := processClientRequest_eq (e := e) h.1 hq
    rcases onBook_apply ⟨r.tickerId.toNat, h.1⟩ (call q) e with ⟨b, hcall, hon⟩ | ⟨f, b, hcall, hon⟩
    · exact .inr ⟨_, q, b, hq, rfl, .inl ⟨hcall, heq.trans hon⟩⟩
    · exact .inr ⟨_, q, b, hq, rfl, .inr ⟨f, hcall, heq.trans hon⟩⟩
  · exact .inl (processClientRequest_refused h)

/-- The responses of a call on a book are added to those sent so far. -/
theorem put_clientResponses (h : (e.tickerOrderBook i).Grows b) : ∃ l, b.clientResponses =
    (e.tickerOrderBook i).clientResponses ++ l ∧ (e.put i b).clientResponses = e.clientResponses ++ l.map Report.msg := by
  obtain ⟨l, hl⟩ := h.1
  exact ⟨l, hl.symm, by rw [put, ← hl, List.drop_left]⟩

/-! ## Runs -/

section Runs
variable {guard : MEOrderBook → Request → Prop} {strict : Bool} {rs : List MEClientRequest}

/-- The request's call on its book is one that `guard` considers. -/
def OnBooks (guard : MEOrderBook → Request → Prop) (e : MatchingEngine) (r : MEClientRequest) : Prop :=
  ∀ i, i.val = r.tickerId.toNat → ∀ q ∈ bookCall r, guard (e.tickerOrderBook i) q

instance [∀ b q, Decidable (guard b q)] (e : MatchingEngine) (r : MEClientRequest) : Decidable (OnBooks guard e r) :=
  inferInstanceAs (Decidable (∀ i : Fin ME_MAX_TICKERS, i.val = r.tickerId.toNat → ∀ q ∈ bookCall r, guard (e.tickerOrderBook i) q))

/-- In a run of the engine every book makes a run of its own. -/
theorem run_books (h : Reaches processClientRequest (OnBooks guard) (fresh strict) rs e) (i : Fin ME_MAX_TICKERS) :
    ∃ qs, Reaches call guard (MEOrderBook.fresh strict) qs (e.tickerOrderBook i) := by
  induction h with
  | start => exact ⟨[], .start⟩
  | @call rs e e' r run ok returns ih =>
    rcases processClientRequest_cases r e with ⟨f, herr⟩ | ⟨j, q, b, hq, hj, ⟨hcall, heq⟩ | ⟨f, -, herr⟩⟩
    · rw [herr] at returns
      cases returns
    · rw [heq] at returns
      cases returns
      obtain ⟨qs, hqs⟩ := ih
      by_cases hij : i = j
      · subst hij
        rw [put_tickerOrderBook, Function.update_self]
        exact ⟨qs ++ [q], .call hqs (ok i hj q hq) hcall⟩
      · rw [put_tickerOrderBook, Function.update_of_ne hij]
        exact ⟨qs, hqs⟩
    · rw [herr] at returns
      cases returns

end Runs

end MatchingEngine
end TradingEcosystem
