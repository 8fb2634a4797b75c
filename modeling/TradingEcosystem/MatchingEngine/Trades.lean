import TradingEcosystem.MatchingEngine
import TradingEcosystem.OrderBook.Tidy

/-! The two sides of a trade. `match` does not look at the side of the order it fills. -/
namespace TradingEcosystem.MatchingEngine
open Program Runs MEOrderBook
variable {b b' : MEOrderBook} {e : MatchingEngine} {l m : List MEClientResponse} {r : MEClientResponse} {strict : Bool}
  {qs : List Request} {rs : List MEClientRequest}

/-- The two responses of a fill carry the two sides. -/
def Opposite (r r' : MEClientResponse) : Prop :=
  (r.side = .BUY ∧ r'.side = .SELL) ∨ (r.side = .SELL ∧ r'.side = .BUY)

instance (r r' : MEClientResponse) : Decidable (Opposite r r') := inferInstanceAs (Decidable (_ ∨ _))

/-- The list falls into pairs of opposite sides. -/
def Pairs : List MEClientResponse → Prop
  | [] => True
  | [_] => False
  | r :: r' :: l => Opposite r r' ∧ Pairs l

/-- `match` sends the responses of a fill one after the other, so the FILLED ones fall into
the pairs of the fills. -/
def Paired (l : List MEClientResponse) : Prop := Pairs (l.filter (·.type = .FILLED))

instance Pairs.decidable : (l : List MEClientResponse) → Decidable (Pairs l)
  | [] => .isTrue trivial
  | [_] => .isFalse id
  | r :: r' :: l => @instDecidableAnd (Opposite r r') (Pairs l) _ (Pairs.decidable l)

instance (l : List MEClientResponse) : Decidable (Paired l) := Pairs.decidable _

theorem Pairs.append_iff (h : Pairs l) : Pairs (l ++ m) ↔ Pairs m := by
  induction l using Pairs.induct with
  | case1 => rfl
  | case2 r => exact h.elim
  | case3 r r' l ih => exact (and_iff_right h.1).trans (ih h.2)

theorem Paired.append_iff (h : Paired l) : Paired (l ++ m) ↔ Paired m := by
  rw [Paired, List.filter_append]
  exact Pairs.append_iff h

theorem Paired.concat (h : Paired l) (hr : r.type ≠ .FILLED) : Paired (l ++ [r]) := by
  rw [h.append_iff, Paired, List.filter_cons_of_neg (by simpa using hr)]
  trivial

private theorem paired_filled {x : Incoming} {p : OrderPtr} {leaves : Qty} (h : Paired (b.clientResponses.map Report.msg))
    (hbuy : x.side = .BUY) (hsell : (b.orderPool.get p).side = .SELL) :
    Paired ((b.filled x p leaves).clientResponses.map Report.msg) := by
  rw [filled_clientResponses, List.map_append, h.append_iff]
  exact ⟨.inl ⟨hbuy, hsell⟩, trivial⟩

private theorem keeps_paired : Keeps (Clean fun _ => False)
    fun b ring phase => Orderly (fun _ => False) True b ring phase ∧ Paired (b.clientResponses.map Report.msg) where
  accept := by
    rintro b ring clientId clientOrderId tickerId side price qty x hb ⟨hk, hp⟩ hg hx
    refine ⟨keeps_orderly.accept hb hk hg hx, ?_⟩
    rw [accepted, reportResponses_clientResponses, List.map_append]
    apply hp.concat
    simp
  fill := by
    rintro b ring x leaves p hb ⟨hk, hp⟩ hside hturn hopen
    refine ⟨keeps_orderly.fill hb hk hside hturn hopen, ?_⟩
    obtain ⟨l, ht, -⟩ := hk
    exact paired_filled hp hside (ht.of_turn hb hturn).2
  fillAll := by
    rintro b ring x leaves p b' hb ⟨hk, hp⟩ hside hturn hfull hrem hr hb'
    refine ⟨keeps_orderly.fillAll hb hk hside hturn hfull hrem hr hb', ?_⟩
    obtain ⟨l, ht, -⟩ := hk
    rw [show b'.clientResponses = (b.filled x p leaves).clientResponses from congrArg Prod.fst hr.journal]
    exact paired_filled hp hside (ht.of_turn hb hturn).2
  done := by
    rintro b ring x hb ⟨hk, hp⟩
    exact ⟨keeps_orderly.done hb hk, hp⟩
  rest := by
    rintro b ring x leaves p b₁ s o hb ⟨hk, hp⟩ hne hex hs ho hpl hadd hb₁
    refine ⟨keeps_orderly.rest hb hk hne hex hs ho hpl hadd hb₁, ?_⟩
    rw [reportUpdates_clientResponses, show (b₁.indexed _ o).clientResponses = b.clientResponses from congrArg Prod.fst hadd.journal]
    exact hp
  reject := by
    rintro b ring clientId orderId tickerId hb ⟨hk, hp⟩ hg
    refine ⟨keeps_orderly.reject hb hk trivial, ?_⟩
    rw [rejected, reportResponses_clientResponses, List.map_append]
    apply hp.concat
    simp
  cancel := by
    rintro b ring clientId orderId tickerId p b₁ hb ⟨hk, hp⟩ hg hi hrem hr hb₁
    refine ⟨keeps_orderly.cancel hb hk trivial hi hrem hr hb₁, ?_⟩
    rw [canceled, reportResponses_clientResponses, reportUpdates_clientResponses, List.map_append,
      show b₁.clientResponses = b.clientResponses from congrArg Prod.fst hr.journal]
    apply hp.concat
    simp

/-- In a run of one book whose remainders join no level of another side, every fill is
between an order to buy and one to sell. -/
theorem book_paired (h : Observes call (Clean fun _ => False) (MEOrderBook.fresh strict) qs b) :
    Paired (b.clientResponses.map Report.msg) := by
  have h₀ : Orderly (fun _ => False) True (MEOrderBook.fresh strict) (fun _ => []) none ∧
      Paired ((MEOrderBook.fresh strict).clientResponses.map Report.msg) := ⟨⟨[], tidy_fresh _ strict, nofun⟩, trivial⟩
  cases h with
  | done run =>
    obtain ⟨ring, -, -, hp⟩ := keeps_paired.run h₀ run
    exact hp
  | @stopped qs b₀ b q f run ok stops =>
    obtain ⟨ring, hb, hk⟩ := keeps_paired.run h₀ run
    obtain ⟨b₁, ring₁, phase, hb₁, ⟨⟨l, ht, -⟩, hp⟩, hend⟩ := keeps_paired.stops hb (MEOrderBook.run_bids run).1 hk ok stops
    rcases hend with he | ⟨x, leaves, p, rfl, hside, hturn, he⟩
    · rw [show b.clientResponses = b₁.clientResponses from congrArg Prod.fst he]
      exact hp
    · rw [show b.clientResponses = (b₁.filled x p leaves).clientResponses from congrArg Prod.fst he]
      exact paired_filled hp hside (ht.of_turn hb₁ hturn).2

/-- What one more call on a book sends falls into pairs if what the book has sent does. -/
private theorem put_paired {i : Fin ME_MAX_TICKERS} {q : Request} (he : Paired e.clientResponses)
    (hp : Paired ((e.tickerOrderBook i).clientResponses.map Report.msg)) (hp' : Paired (b.clientResponses.map Report.msg))
    (hb : b = final (call q (e.tickerOrderBook i))) : Paired (e.put i b).clientResponses := by
  obtain ⟨l, hl, hput⟩ := put_clientResponses (hb ▸ grows_call q (e.tickerOrderBook i))
  rw [hl, List.map_append, hp.append_iff] at hp'
  rw [hput, he.append_iff]
  exact hp'

/-- In a run of the engine whose remainders join no level of another side, every fill is
between an order to buy and one to sell, also where the last request stopped the engine. -/
theorem run_paired (h : Observes processClientRequest (OnBooks (Clean fun _ => False)) (fresh strict) rs e) :
    Paired e.clientResponses := by
  have hrun : ∀ {rs e}, Reaches processClientRequest (OnBooks (Clean fun _ => False)) (fresh strict) rs e →
      Paired e.clientResponses := by
    intro rs e run
    induction run with
    | start => trivial
    | @call rs e e' r run ok returns ih =>
      rcases processClientRequest_cases r e with ⟨f, herr⟩ | ⟨i, q, b, hq, hi, ⟨hcall, heq⟩ | ⟨f, -, herr⟩⟩
      · rw [herr] at returns
        cases returns
      · rw [heq] at returns
        cases returns
        obtain ⟨qs, hqs⟩ := run_books run i
        exact put_paired ih (book_paired (.done hqs)) (book_paired (.done (.call hqs (ok i hi q hq) hcall)))
          (by rw [hcall, final_ok])
      · rw [herr] at returns
        cases returns
  cases h with
  | done run => exact hrun run
  | @stopped rs e e' r f run ok stops =>
    rcases processClientRequest_cases r e with ⟨f', herr⟩ | ⟨i, q, b, hq, hi, ⟨-, heq⟩ | ⟨f', hcall, herr⟩⟩
    · rw [herr] at stops
      cases stops
      exact hrun run
    · rw [heq] at stops
      cases stops
    · rw [herr] at stops
      cases stops
      obtain ⟨qs, hqs⟩ := run_books run i
      exact put_paired (hrun run) (book_paired (.done hqs)) (book_paired (.stopped hqs (ok i hi q hq) hcall))
        (by rw [hcall, final_error])

/-- Two tickers, and a purchase that takes two orders of one of them. -/
def twoTickers : List MEClientRequest :=
  [{ type := .NEW, clientId := 0, tickerId := 1, orderId := 0, side := .SELL, price := 100, qty := 5 },
   { type := .NEW, clientId := 1, tickerId := 2, orderId := 0, side := .BUY, price := 100, qty := 5 },
   { type := .NEW, clientId := 2, tickerId := 1, orderId := 0, side := .SELL, price := 99, qty := 4 },
   { type := .NEW, clientId := 3, tickerId := 1, orderId := 0, side := .BUY, price := 100, qty := 7 },
   { type := .CANCEL, clientId := 1, tickerId := 2, orderId := 0 }]

theorem run_paired_twoTickers : ∃ e, Reaches processClientRequest (OnBooks (Clean fun _ => False)) (fresh true) twoTickers e ∧
    Paired e.clientResponses ∧ (e.clientResponses.filter (·.type = .FILLED)).length = 4 := by
  obtain ⟨e, hrun, hlen⟩ : ∃ e, Reaches processClientRequest (OnBooks (Clean fun _ => False)) (fresh true) twoTickers e ∧
      (e.clientResponses.filter (·.type = .FILLED)).length = 4 := exists_of_guarded (by decide +kernel)
  exact ⟨e, hrun, run_paired (.done hrun), hlen⟩

/-- An order to buy in a level to sell is all that the level holds when the next order to
buy meets it. -/
theorem buyer_trades_with_buyer : ∃ e, Reaches processClientRequest (fun _ _ => True) (fresh true)
    [{ type := .NEW, clientId := 0, tickerId := 0, orderId := 0, side := .SELL, price := 256, qty := 5 },
     { type := .NEW, clientId := 1, tickerId := 0, orderId := 1, side := .BUY, price := 0, qty := 3 },
     { type := .CANCEL, clientId := 0, tickerId := 0, orderId := 0 },
     { type := .NEW, clientId := 2, tickerId := 0, orderId := 2, side := .BUY, price := 10, qty := 2 }] e ∧
    ¬ Paired e.clientResponses :=
  exists_of_guarded (by decide +kernel)

end TradingEcosystem.MatchingEngine
