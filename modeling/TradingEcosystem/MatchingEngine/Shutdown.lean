import TradingEcosystem.MatchingEngine
import TradingEcosystem.OrderBook.Shutdown

/-! The destructor of the engine deletes the books in the order of their tickers; each is printed with the
validity check on, and the first one that fails it ends the process. -/
namespace TradingEcosystem.MatchingEngine
open Program Runs MEOrderBook
variable {e e' : MatchingEngine} {i : Fin ME_MAX_TICKERS} {is : List (Fin ME_MAX_TICKERS)} {f : Fault}
  {result : Fin ME_MAX_TICKERS → Except Fault String} {strict : Bool} {rs : List MEClientRequest}

/-- `delete order_book` for each of the books, with the texts that they log. -/
def deleteBooks : List (Fin ME_MAX_TICKERS) → EngineM (List String)
  | [] => return []
  | i :: is => do
    let text ← focus (fun e => e.tickerOrderBook i)
      (fun e b => { e with tickerOrderBook := Function.update e.tickerOrderBook i b }) (MEOrderBook.destructor (.ofNat i))
    let texts ← deleteBooks is
    return text :: texts

/-- `~MatchingEngine`, once the thread of the engine has ended. -/
def destructor : EngineM (List String) := deleteBooks (List.finRange ME_MAX_TICKERS)

/-- The engine whose books `is` are cleared. -/
def clear (is : List (Fin ME_MAX_TICKERS)) (e : MatchingEngine) : MatchingEngine :=
  { e with tickerOrderBook := fun i => if i ∈ is then (e.tickerOrderBook i).cleared else e.tickerOrderBook i }

/-- The books `is` are deleted with the given results: all of them, or those before the first one that fails, which stays as
it is, as do those behind it. -/
def Deletes (is : List (Fin ME_MAX_TICKERS)) (e : MatchingEngine) (result : Fin ME_MAX_TICKERS → Except Fault String) : Prop :=
  match is.mapM result with
  | .ok texts => deleteBooks is e = .ok texts (e.clear is)
  | .error f => ∃ done i rest texts, is = done ++ i :: rest ∧ done.mapM result = .ok texts ∧ result i = .error f ∧
      deleteBooks done e = .ok texts (e.clear done) ∧ deleteBooks is e = .error f (e.clear done)

theorem destructor_ok {b : MEOrderBook} {tickerId : TickerId} {text : String}
    (h : Reads (MEOrderBook.toString tickerId false true) b (.ok text)) :
    MEOrderBook.destructor tickerId b = .ok text b.cleared := by
  rw [MEOrderBook.destructor, bind_of_ok h]
  rfl

theorem destructor_error {b : MEOrderBook} {tickerId : TickerId}
    (h : Reads (MEOrderBook.toString tickerId false true) b (.error f)) : MEOrderBook.destructor tickerId b = .error f b := by
  rw [MEOrderBook.destructor, bind_of_error h]

/-- The books of tickers that are not deleted stay as they are. -/
theorem clear_of_notMem (hi : i ∉ is) : (e.clear is).tickerOrderBook i = e.tickerOrderBook i := if_neg hi

theorem clear_cons (hi : i ∉ is) : MatchingEngine.clear is { e with
    tickerOrderBook := Function.update e.tickerOrderBook i (e.tickerOrderBook i).cleared } = e.clear (i :: is) := by
  rw [clear, clear]
  congr 1
  funext j
  by_cases hj : j = i
  · subst hj
    simp [hi]
  · simp [hj]

section
variable {texts : List String}

theorem mapM_cons_eq_ok : (i :: is).mapM result = .ok texts ↔
    ∃ text rest, result i = .ok text ∧ is.mapM result = .ok rest ∧ texts = text :: rest := by
  rw [List.mapM_cons]
  constructor
  · intro h
    cases hr : result i with
    | error f =>
      rw [hr] at h
      cases h
    | ok text =>
      rw [hr] at h
      cases hm : is.mapM result with
      | error f =>
        rw [hm] at h
        cases h
      | ok rest =>
        rw [hm] at h
        cases h
        exact ⟨text, rest, rfl, rfl, rfl⟩
  · rintro ⟨text, rest, hr, hm, rfl⟩
    rw [hr, hm]
    rfl

theorem deleteBooks_ok (hd : is.Nodup)
    (h : ∀ i ∈ is, Reads (MEOrderBook.toString (.ofNat i) false true) (e.tickerOrderBook i) (result i))
    (hm : is.mapM result = .ok texts) : deleteBooks is e = .ok texts (e.clear is) := by
  induction is generalizing e texts with
  | nil =>
    have hclear : e.clear [] = e := by simp [clear]
    cases hm
    rw [hclear]
    rfl
  | cons i is ih =>
    obtain ⟨hi, hd⟩ := List.nodup_cons.mp hd
    obtain ⟨text, rest, hr, hrest, rfl⟩ := mapM_cons_eq_ok.mp hm
    have hbook := h i List.mem_cons_self
    rw [hr] at hbook
    -- the other books are as they were
    have hothers := ih (e := { e with
        tickerOrderBook := Function.update e.tickerOrderBook i (e.tickerOrderBook i).cleared }) hd (fun j hj => by
      have hne : j ≠ i := fun hji => hi (hji ▸ hj)
      have hsame := Function.update_of_ne hne (e.tickerOrderBook i).cleared e.tickerOrderBook
      dsimp only
      rw [hsame]
      exact h j (List.mem_cons_of_mem _ hj)) hrest
    rw [clear_cons hi] at hothers
    have hfirst : deleteBooks (i :: is) e = (deleteBooks is >>= fun texts => pure (text :: texts)) { e with
        tickerOrderBook := Function.update e.tickerOrderBook i (e.tickerOrderBook i).cleared } :=
      bind_of_ok (focus_of_ok (destructor_ok hbook))
    exact hfirst.trans (bind_of_ok hothers)

/-- Books are deleted one after the other. -/
theorem deleteBooks_append_error {js : List (Fin ME_MAX_TICKERS)} {e₁ : MatchingEngine} (h : deleteBooks is e = .ok texts e₁)
    (hf : deleteBooks js e₁ = .error f e') : deleteBooks (is ++ js) e = .error f e' := by
  induction is generalizing e texts with
  | nil =>
    cases h
    exact hf
  | cons i is ih =>
    obtain ⟨text, e₂, hfirst, hrest⟩ := bind_eq_ok.mp h
    obtain ⟨rest, e₃, hrest, hlast⟩ := bind_eq_ok.mp hrest
    cases hlast
    exact (bind_of_ok hfirst).trans (bind_of_error (ih hrest))

theorem mapM_error (h : is.mapM result = .error f) :
    ∃ done i rest texts, is = done ++ i :: rest ∧ done.mapM result = .ok texts ∧ result i = .error f := by
  induction is with
  | nil => cases h
  | cons i is ih =>
    rw [List.mapM_cons] at h
    cases hr : result i with
    | error f' =>
      rw [hr] at h
      cases h
      exact ⟨[], i, is, [], rfl, rfl, hr⟩
    | ok text =>
      rw [hr] at h
      cases hm : is.mapM result with
      | ok texts =>
        rw [hm] at h
        cases h
      | error f' =>
        rw [hm] at h
        cases h
        obtain ⟨done, j, rest, texts, rfl, hdone, hj⟩ := ih hm
        exact ⟨i :: done, j, rest, text :: texts, rfl, mapM_cons_eq_ok.mpr ⟨text, texts, hr, hdone, rfl⟩, hj⟩

end

theorem deletes_books (hd : is.Nodup)
    (h : ∀ i ∈ is, Reads (MEOrderBook.toString (.ofNat i) false true) (e.tickerOrderBook i) (result i)) :
    Deletes is e result := by
  unfold Deletes
  cases hm : is.mapM result with
  | ok texts => exact deleteBooks_ok hd h hm
  | error f =>
    obtain ⟨done, i, rest, texts, rfl, hdone, hi⟩ := mapM_error hm
    obtain ⟨hdistinct, -, hapart⟩ := List.nodup_append.mp hd
    have hbefore := deleteBooks_ok hdistinct (fun j hj => h j (List.mem_append_left _ hj)) hdone
    have hbook := h i (List.mem_append_right _ List.mem_cons_self)
    rw [hi, ← clear_of_notMem fun hmem => hapart i hmem i List.mem_cons_self rfl] at hbook
    have hfails : deleteBooks (i :: rest) (e.clear done) = .error f { e.clear done with
        tickerOrderBook := Function.update (e.clear done).tickerOrderBook i ((e.clear done).tickerOrderBook i) } :=
      bind_of_error (focus_of_error (destructor_error hbook))
    rw [Function.update_eq_self] at hfails
    exact ⟨done, i, rest, texts, rfl, hdone, hi, hbefore, deleteBooks_append_error hbefore hfails⟩

/-- All books are deleted if and only if each of them can be. -/
theorem mapM_ok_iff : (∃ texts, is.mapM result = .ok texts) ↔ ∀ i ∈ is, ∃ text, result i = .ok text := by
  induction is with
  | nil => exact iff_of_true ⟨[], rfl⟩ (by simp)
  | cons i is ih =>
    rw [List.forall_mem_cons, ← ih]
    constructor
    · rintro ⟨texts, h⟩
      obtain ⟨text, rest, hr, hm, -⟩ := mapM_cons_eq_ok.mp h
      exact ⟨⟨text, hr⟩, rest, hm⟩
    · rintro ⟨⟨text, hr⟩, rest, hm⟩
      exact ⟨text :: rest, mapM_cons_eq_ok.mpr ⟨text, rest, hr, hm, rfl⟩⟩

theorem Deletes.returns_iff (h : Deletes is e result) :
    (∃ texts e', deleteBooks is e = .ok texts e') ↔ ∃ texts, is.mapM result = .ok texts := by
  unfold Deletes at h
  cases hm : is.mapM result with
  | ok texts =>
    rw [hm] at h
    exact iff_of_true ⟨texts, _, h⟩ ⟨texts, rfl⟩
  | error f =>
    rw [hm] at h
    obtain ⟨done, i, rest, texts, -, -, -, -, he⟩ := h
    rw [he]
    exact iff_of_false (by rintro ⟨texts, e₁, h⟩; cases h) (by rintro ⟨texts, h⟩; cases h)

/-- However clean requests came, deleting the engine prints and clears the books up to the first one that has an ask at the
lowest price of the type or a level without forward link: the asks of each, with all the resting orders to sell and none
to buy. It comes to an end exactly if there is no such book. -/
theorem run_destroyed (h : Reaches processClientRequest (OnBooks fun b r => Clean (fun _ => False) b r) (fresh strict) rs e) :
    ∃ asks : Fin ME_MAX_TICKERS → List (LevelPtr × List OrderPtr), (∀ i, (e.tickerOrderBook i).Asks (asks i)) ∧
      Deletes (List.finRange ME_MAX_TICKERS) e (fun i => (e.tickerOrderBook i).outcome (.ofNat i) false (asks i)) ∧
      ((∃ texts e', destructor e = .ok texts e') ↔ ∀ i, ∀ y ∈ asks i,
        (e.tickerOrderBook i).levelPrice y.1 ≠ Int64.minValue ∧ (e.tickerOrderBook i).nextEntry y.1 ≠ none) := by
  have hbook : ∀ i, ∃ l, (e.tickerOrderBook i).Asks l ∧
      Reads (MEOrderBook.toString (.ofNat i) false true) (e.tickerOrderBook i) ((e.tickerOrderBook i).outcome (.ofNat i) false l) :=
    fun i => by
      obtain ⟨qs, hqs⟩ := run_books h i
      exact run_outcome hqs (.ofNat i) false
  choose asks hasks hreads using hbook
  have hdeletes := deletes_books (List.nodup_finRange ME_MAX_TICKERS) fun i _ => hreads i
  refine ⟨asks, hasks, hdeletes, hdeletes.returns_iff.trans (mapM_ok_iff.trans ?_)⟩
  simp only [List.mem_finRange, true_implies]
  exact forall_congr' fun i => outcome_ok_iff

/-- Two orders to sell, the cheaper one last. -/
def cheaperLast : List MEClientRequest :=
  [{ type := .NEW, clientId := 0, tickerId := 1, orderId := 0, side := .SELL, price := 101, qty := 5 },
   { type := .NEW, clientId := 1, tickerId := 1, orderId := 0, side := .SELL, price := 100, qty := 4 }]

theorem run_destroyed_cheaperLast : ∃ e, Reaches processClientRequest (OnBooks fun b r => Clean (fun _ => False) b r) (fresh true)
    cheaperLast e ∧ ∃ texts e', destructor e = .ok texts e' := by
  obtain ⟨e, hrun, hlevels⟩ : ∃ e, Reaches processClientRequest (OnBooks fun b r => Clean (fun _ => False) b r) (fresh true)
      cheaperLast e ∧ ∀ i, (e.tickerOrderBook i).asksAtPrice = none ∨ ((e.tickerOrderBook i).asksAtPrice = some 1 ∧
        ∀ ℓ : Fin 2, (e.tickerOrderBook i).levelPrice ℓ ≠ Int64.minValue ∧ (e.tickerOrderBook i).nextEntry ℓ = some (1 - ℓ.val)) :=
    exists_of_guarded (by decide +kernel)
  obtain ⟨asks, hasks, -, hreturns⟩ := run_destroyed hrun
  refine ⟨e, hrun, hreturns.mpr fun i y hy => ?_⟩
  have hhead := (hasks i).head
  rcases hlevels i with hnone | ⟨hbest, hlinked⟩
  · rw [hnone, eq_comm, List.head?_eq_none_iff, List.map_eq_nil_iff] at hhead
    rw [hhead] at hy
    cases hy
  · -- the links lead from level 1 to level 0 and back
    have hlt : ∀ ℓ ∈ (asks i).map Prod.fst, ℓ < 2 := by
      refine (hasks i).path.induction (· < 2) _ (fun ℓ ℓ' hnext hℓ => ?_) fun hne => ?_
      · have hto := hnext.symm.trans (hlinked ⟨ℓ, hℓ⟩).2
        cases hto
        exact Nat.lt_succ_of_le (Nat.sub_le ..)
      · rw [hbest, List.head?_eq_some_head hne] at hhead
        rw [← Option.some.inj hhead]
        decide
    obtain ⟨hprice, hnext⟩ := hlinked ⟨y.1, hlt _ (List.mem_map_of_mem hy)⟩
    exact ⟨hprice, fun hnone => by rw [hnone] at hnext; cases hnext⟩

end TradingEcosystem.MatchingEngine
