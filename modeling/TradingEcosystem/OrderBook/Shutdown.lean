import TradingEcosystem.OrderBook.Printing
import TradingEcosystem.OrderBook.LevelPool
import TradingEcosystem.OrderBook.Tidy

/-! The destructor of a book prints it with the validity check on. What it meets are the rings of
the asks, and the last of the levels need not be linked back to the best one. -/
namespace TradingEcosystem.MEOrderBook
open Program Runs LinkedRing SortedScan
variable {priced : Side → Prop} {b b' : MEOrderBook} {ring : Slot → List OrderPtr} {best : Option LevelPtr} {ls : List LevelPtr}
  {l m : List (LevelPtr × List OrderPtr)} {y z : LevelPtr × List OrderPtr} {p : OrderPtr} {ℓ : LevelPtr} {side : Side}
  {strict : Bool} {rs : List Request}

/-- The members that `~MEOrderBook` sets to null. -/
def cleared (b : MEOrderBook) : MEOrderBook :=
  { b with bidsAtPrice := none, asksAtPrice := none, cidOidToOrder := fun _ _ => none }

/-- `~MEOrderBook` of the book for `ticker_id_`, with the text that it logs. -/
def destructor (tickerId : TickerId) : BookM String := do
  let text ← toString tickerId false true
  modify cleared
  return text

/-! ## A side whose last level may lack its forward link -/

/-- `l` lists the levels of a side around its ring, from the best one on, with their orders. -/
structure LooseRings (b : MEOrderBook) (best : Option LevelPtr) (l : List (LevelPtr × List OrderPtr)) : Prop where
  head : best = (l.map Prod.fst).head?
  links : Ring True b.nextEntry b.prevEntry (l.map Prod.fst)
  nodup : (l.map Prod.fst).Nodup
  blocks : ∀ y ∈ l, b.Block y.1
  orders : ∀ y ∈ l, b.OrderRing y.1 y.2

/-- The ring is closed, or it ends at a level that is not the best one. -/
theorem LooseRings.cases (h : LooseRings b best l) : (SideRings b best l ∧ ∀ y ∈ l, b.nextEntry y.1 ≠ none) ∨
    ∃ m z, l = m ++ [z] ∧ m ≠ [] ∧ b.nextEntry z.1 = none := by
  rcases l.eq_nil_or_concat' with rfl | ⟨m, z, rfl⟩
  · exact .inl ⟨⟨h.head, .nil, h.nodup, h.blocks, h.orders⟩, by simp⟩
  · have hlinks := h.links
    rw [List.map_append, List.map_singleton] at hlinks
    rcases hlinks.next_of_split with hnext | ⟨-, hnone, -, hne⟩
    · have hclosed : Ring False b.nextEntry b.prevEntry ((m ++ [z]).map Prod.fst) := by
        refine ⟨h.links.path, h.links.back, fun a ha t ht => .inl ?_⟩
        rw [List.map_append, List.map_singleton] at ha ht
        rw [List.getLast?_concat, Option.mem_some] at ht
        rw [← ht, hnext, List.nil_append]
        exact ha
      have hrings : SideRings b best (m ++ [z]) := ⟨h.head, hclosed, h.nodup, h.blocks, h.orders⟩
      refine .inl ⟨hrings, fun y hy => ?_⟩
      obtain ⟨ℓ, hℓ, -⟩ := (hrings.printable hy).next
      rw [hℓ]
      exact Option.some_ne_none ℓ
    · exact .inr ⟨m, z, rfl, fun e => hne (by rw [e]; rfl), hnone⟩

/-- The levels before the last one can be printed. -/
theorem LooseRings.printable (h : LooseRings b best (m ++ [z])) (hy : y ∈ m) : b.Printable y := by
  obtain ⟨m₁, m₂, rfl⟩ := List.append_of_mem hy
  have hlinks := h.links
  rw [List.append_assoc, List.cons_append, List.map_append, List.map_cons] at hlinks
  have hblocks : ∀ ℓ ∈ m₁.map Prod.fst ++ (m₂ ++ [z]).map Prod.fst, b.Block ℓ := fun ℓ hℓ => by
    rw [← List.map_append] at hℓ
    obtain ⟨x, hx, rfl⟩ := List.mem_map.mp hℓ
    refine h.blocks x ?_
    simp only [List.mem_append, List.mem_cons, List.not_mem_nil, or_false] at hx ⊢
    tauto
  obtain ⟨a, ha, hprev, ⟨c, hc, hnext⟩ | ⟨-, -, hnil⟩⟩ := hlinks.neighbours (by simp)
  · have hmem : y ∈ m₁ ++ y :: m₂ ++ [z] := by simp
    exact ⟨h.blocks y hmem, h.orders y hmem, ⟨a, hprev, hblocks a ha⟩, c, hnext, hblocks c hc⟩
  · simp at hnil

/-- At the last level of an open ring `printer` follows a null pointer. -/
theorem LooseRings.reads_printer (h : LooseRings b best (m ++ [z])) (hnone : b.nextEntry z.1 = none) (detailed validityCheck : Bool)
    (str : String) (last : Price) :
    Reads (printer detailed str (some z.1) side last validityCheck) b (.error .nullDeref) := by
  have hz : z ∈ m ++ [z] := by simp
  have hlinks := h.links
  rw [List.map_append, List.map_singleton] at hlinks
  obtain ⟨ℓ, hℓ⟩ : ∃ ℓ, (z.1 :: ([] ++ m.map Prod.fst)).getLast? = some ℓ := ⟨_, List.getLast?_cons⟩
  have hprev : b.prevEntry z.1 = some ℓ := hlinks.prev_of_split.trans hℓ
  have hmem : ℓ ∈ (m ++ [z]).map Prod.fst := by
    have hmem := List.mem_of_getLast? hℓ
    rw [List.nil_append, List.mem_cons] at hmem
    rw [List.map_append, List.map_singleton, List.mem_append, List.mem_singleton]
    exact hmem.symm
  obtain ⟨x, hx, rfl⟩ := List.mem_map.mp hmem
  have hbefore : level (b.prevEntry z.1) b = .ok (b.ordersAtPricePool.get x.1) b := by rw [hprev, level_of_block (h.blocks x hx)]
  have hcount := (h.orders z hz).reads_loop countOrder (fun acc p => (acc.1 + (b.orderPool.get p).qty, acc.2 + 1))
    (fun _ _ _ => .pure _) (0, 0)
  have hbehind : Reads (level (b.nextEntry z.1)) b (.error .nullDeref) := by rw [hnone]; exact .throw _
  exact .after (level_of_block (h.blocks z hz)) (.after hcount (.after hbefore (.stops hbehind)))

/-- The loop over the levels of an open ring prints all of them but the last one. -/
theorem LooseRings.reads_loop (h : LooseRings b best (m ++ [z])) (hne : m ≠ []) (hnone : b.nextEntry z.1 = none)
    (hside : side = .BUY ∨ side = .SELL) (title : String) (detailed validityCheck : Bool) (acc : Price × Nat × String) :
    Reads (levelsLoop title side detailed validityCheck best ME_MAX_PRICE_LEVELS best acc) b
      (m.foldlM (b.turn title side detailed validityCheck) acc >>= fun _ => .error .nullDeref) := by
  obtain ⟨first, m', hm⟩ := List.exists_cons_of_ne_nil hne
  have hhead : ((m ++ [z]).map Prod.fst).head? = some first.1 := by rw [hm]; rfl
  have hlen : m.length < ME_MAX_PRICE_LEVELS := by
    have hlen := length_le_of_lt h.nodup fun ℓ hℓ => by
      obtain ⟨y, hy, rfl⟩ := List.mem_map.mp hℓ
      exact (h.blocks y hy).1
    rw [List.length_map, List.length_append, List.length_singleton] at hlen
    omega
  rw [h.head, hhead]
  refine Reads.until Prod.fst (fun fuel ℓ acc => levelsLoop title side detailed validityCheck (some first.1) fuel (some ℓ) acc)
    _ _ h.links h.nodup hhead hlen ?_ ?_ acc
  · rintro fuel ⟨last, count, ss⟩
    exact .after (level_of_block (h.blocks z (by simp))) (.stops (h.reads_printer hnone detailed validityCheck _ last))
  · rintro y hy c hnext hc fuel ⟨last, count, ss⟩ rest hrest
    rw [turn_eq, bind_assoc]
    refine .after (level_of_block (h.blocks y (by simp [hy]))) (.bind ((h.printable hy).reads_printer hside detailed validityCheck _ last) ?_)
    rintro ⟨price, ss⟩ -
    have hgo : (b.ordersAtPricePool.get y.1).nextEntry = some c := hnext
    have hother : some c ≠ some first.1 := fun e => hc (Option.some.inj e)
    rw [hgo, if_neg hother]
    exact hrest _

/-! ## The check of a rising side -/

/-- What the check of the asks in a book without bids comes to: it leaves the process at an ask at the lowest
price of the type, and fails at a level without forward link. -/
def outcome (b : MEOrderBook) (tickerId : TickerId) (detailed : Bool) (l : List (LevelPtr × List OrderPtr)) : Except Fault String :=
  match l.find? fun y => b.levelPrice y.1 = Int64.minValue with
  | some y => .error (b.unsorted Int64.minValue y)
  | none => if ∃ y ∈ l, b.nextEntry y.1 = none then .error .nullDeref else .ok (b.bookText tickerId detailed l [])

theorem outcome_lowest (h : b.levelPrice y.1 = Int64.minValue) (tickerId : TickerId) (detailed : Bool) :
    b.outcome tickerId detailed (y :: l) = .error (b.unsorted Int64.minValue y) := by
  rw [outcome, List.find?_cons_of_pos (by simpa using h)]

theorem outcome_higher (h : ∀ y ∈ l, b.levelPrice y.1 ≠ Int64.minValue) (tickerId : TickerId) (detailed : Bool) :
    b.outcome tickerId detailed l =
      if ∃ y ∈ l, b.nextEntry y.1 = none then .error .nullDeref else .ok (b.bookText tickerId detailed l []) := by
  have hnone : l.find? (fun y => b.levelPrice y.1 = Int64.minValue) = none := by simpa using h
  rw [outcome, hnone]

theorem outcome_ok_iff {tickerId : TickerId} {detailed : Bool} : (∃ text, b.outcome tickerId detailed l = .ok text) ↔
    ∀ y ∈ l, b.levelPrice y.1 ≠ Int64.minValue ∧ b.nextEntry y.1 ≠ none := by
  rw [outcome]
  cases hfind : l.find? fun y => b.levelPrice y.1 = Int64.minValue with
  | some y =>
    have hy : b.levelPrice y.1 = Int64.minValue := by simpa using List.find?_some hfind
    refine iff_of_false ?_ fun h => (h y (List.mem_of_find?_eq_some hfind)).1 hy
    rintro ⟨text, h⟩
    cases h
  | none =>
    have hhigher : ∀ y ∈ l, b.levelPrice y.1 ≠ Int64.minValue := by simpa using hfind
    split_ifs with hnone
    · refine iff_of_false ?_ fun h => ?_
      · rintro ⟨text, h⟩
        cases h
      · obtain ⟨y, hy, hnext⟩ := hnone
        exact (h y hy).2 hnext
    · exact iff_of_true ⟨_, rfl⟩ fun y hy => ⟨hhigher y hy, fun hnext => hnone ⟨y, hy, hnext⟩⟩

/-- On a rising side no level but the best one is at the lowest price. -/
theorem lowest_or_higher (h : (b.prices l).IsChain (Ahead .SELL)) :
    (∃ y m, l = y :: m ∧ b.levelPrice y.1 = Int64.minValue) ∨
      ((∀ y ∈ l, b.levelPrice y.1 ≠ Int64.minValue) ∧ (Int64.minValue :: b.prices l).IsChain (Ahead .SELL)) := by
  have hahead : ∀ q : Price, q ≠ Int64.minValue → Ahead .SELL Int64.minValue q := fun q hq => by
    have hle := q.minValue_le_toInt
    rw [ahead_sell, Int64.lt_iff_toInt_lt]
    rw [ne_eq, ← Int64.toInt_inj] at hq
    omega
  have htrans : IsTrans Price (Ahead .SELL) := ⟨fun p q r hpq hqr => by
    rw [ahead_sell] at hpq hqr ⊢
    exact Int64.lt_trans hpq hqr⟩
  cases l with
  | nil => exact .inr ⟨by simp, .singleton _⟩
  | cons y m =>
    by_cases hy : b.levelPrice y.1 = Int64.minValue
    · exact .inl ⟨y, m, rfl, hy⟩
    · have hchain : (Int64.minValue :: b.prices (y :: m)).IsChain (Ahead .SELL) := List.isChain_cons_cons.mpr ⟨hahead _ hy, h⟩
      refine .inr ⟨fun x hx he => ?_, hchain⟩
      have hlt := (List.pairwise_cons.mp hchain.pairwise).1 _ (List.mem_map_of_mem hx)
      rw [he, ahead_sell] at hlt
      exact Int64.lt_irrefl hlt

/-- Of a book without bids the check prints the asks, unless one of the two reasons not to is there. -/
theorem LooseRings.reads_toString (h : LooseRings b b.asksAtPrice l) (hbids : b.bidsAtPrice = none)
    (hrising : (b.prices l).IsChain (Ahead .SELL)) (tickerId : TickerId) (detailed : Bool) :
    Reads (toString tickerId detailed true) b (b.outcome tickerId detailed l) := by
  rcases h.cases with ⟨hrings, hlinked⟩ | ⟨m, z, rfl, hne, hnone⟩
  · rcases lowest_or_higher hrising with ⟨y, m, rfl, hy⟩ | ⟨hhigher, hchain⟩
    · rw [outcome_lowest hy]
      have hout : ¬ Ahead .SELL Int64.minValue (b.levelPrice y.1) := by
        rw [hy, ahead_sell]
        exact Int64.lt_irrefl
      have hloop := hrings.reads_loop (.inr rfl) "ASKS" detailed true (Int64.minValue, 0, "Ticker:" ++ tickerIdToString tickerId ++ "\n")
      rw [turn_true, List.foldlM_cons, check, if_neg hout] at hloop
      exact .after (a := b) rfl (.stops hloop)
    · have hclosed : ¬ ∃ y ∈ l, b.nextEntry y.1 = none := by
        rintro ⟨y, hy, hnone⟩
        exact hlinked y hy hnone
      have hbook : BookRings b l [] := ⟨hrings, ⟨hbids, .nil, .nil, List.forall_mem_nil _, List.forall_mem_nil _⟩⟩
      rw [outcome_higher hhigher, if_neg hclosed]
      exact hbook.toString_passes tickerId detailed ⟨hchain, .singleton _⟩
  · have hloop := h.reads_loop hne hnone (.inr rfl) "ASKS" detailed true (Int64.minValue, 0, "Ticker:" ++ tickerIdToString tickerId ++ "\n")
    rw [turn_true] at hloop
    rcases lowest_or_higher hrising with ⟨y, l', hl, hy⟩ | ⟨hhigher, hchain⟩
    · obtain ⟨x, m', rfl⟩ := List.exists_cons_of_ne_nil hne
      obtain ⟨rfl, -⟩ := List.cons.inj hl
      have hout : ¬ Ahead .SELL Int64.minValue (b.levelPrice x.1) := by
        rw [hy, ahead_sell]
        exact Int64.lt_irrefl
      rw [List.foldlM_cons, check, if_neg hout] at hloop
      rw [List.cons_append, outcome_lowest hy]
      exact .after (a := b) rfl (.stops hloop)
    · rw [prices, List.map_append, ← List.cons_append] at hchain
      rw [scan_of_chain (List.isChain_append.mp hchain).1] at hloop
      rw [outcome_higher hhigher, if_pos ⟨z, by simp, hnone⟩]
      exact .after (a := b) rfl (.stops hloop)

/-! ## Books that clean requests make -/

/-- The asks of a book as a walk along its pointers meets them: levels from the cheapest one on, each with its orders
around its ring, and in them all the resting orders to sell. -/
structure Asks (b : MEOrderBook) (l : List (LevelPtr × List OrderPtr)) : Prop where
  head : b.asksAtPrice = (l.map Prod.fst).head?
  path : (l.map Prod.fst).IsChain fun ℓ ℓ' => b.nextEntry ℓ = some ℓ'
  rising : (b.prices l).IsChain (Ahead .SELL)
  orders : ∀ y ∈ l, b.OrderRing y.1 y.2
  resting : ∀ p, (∃ y ∈ l, p ∈ y.2) ↔ b.Resting p ∧ (b.orderPool.get p).side = .SELL

/-- The levels with the orders of their slots. -/
def withOrders (b : MEOrderBook) (ring : Slot → List OrderPtr) (ls : List LevelPtr) : List (LevelPtr × List OrderPtr) :=
  ls.map fun ℓ => (ℓ, ring (priceToIndex (b.levelPrice ℓ)))

theorem withOrders_fst : (b.withOrders ring ls).map Prod.fst = ls := (List.map_map ..).trans (List.map_id ls)

theorem Tidy.rings (hb : HeapInv b ring) (ht : Tidy priced b ls) (hlevels : b.ordersAtPricePool.size = ME_MAX_PRICE_LEVELS)
    (horders : b.orderPool.size = ME_MAX_ORDER_IDS) :
    LooseRings b b.asksAtPrice (b.withOrders ring ls) ∧ b.Asks (b.withOrders ring ls) := by
  have hlevel : ∀ y ∈ b.withOrders ring ls, b.ordersAtPricePool.Live y.1 ∧ y.1 ∈ ls ∧ y.2 = ring (priceToIndex (b.levelPrice y.1)) :=
    fun y hy => by
      obtain ⟨ℓ, hℓ, rfl⟩ := List.mem_map.mp hy
      exact ⟨ht.live ℓ hℓ, hℓ, rfl⟩
  have hrings : ∀ y ∈ b.withOrders ring ls, b.OrderRing y.1 y.2 := fun y hy => by
    obtain ⟨hlive, -, hring⟩ := hlevel y hy
    have hhome := hb.home y.1 hlive
    rw [hring]
    refine ⟨fun e => ?_, (hb.level _ _ hhome).2.1, hb.links _, hb.nodup _, fun p hp => ?_⟩
    · rw [(hb.empty _).mpr e] at hhome
      cases hhome
    · have hp := ((hb.member _ p).mp hp).1
      exact ⟨(hb.orderBound p hp).trans_eq horders, fun _ => hp⟩
  have hblocks : ∀ y ∈ b.withOrders ring ls, b.Block y.1 := fun y hy =>
    ⟨(hb.levelBound y.1 (hlevel y hy).1).trans_eq hlevels, fun _ => (hlevel y hy).1⟩
  refine ⟨⟨?_, ?_, ?_, hblocks, hrings⟩, ⟨?_, ?_, ?_, hrings, fun p => ⟨?_, ?_⟩⟩⟩
  · rw [withOrders_fst]
    exact ht.asks.head
  · rw [withOrders_fst]
    exact ht.asks.links
  · rw [withOrders_fst]
    exact ht.asks.nodup
  · rw [withOrders_fst]
    exact ht.asks.head
  · rw [withOrders_fst]
    exact ht.asks.links.path.imp fun _ _ h => h.1
  · rw [prices, ← Function.comp_def b.levelPrice, ← List.map_map, withOrders_fst]
    exact (List.isChain_map _).mpr (ht.asks.rising.imp fun hlt => ahead_sell.mpr hlt).isChain
  · rintro ⟨y, hy, hp⟩
    obtain ⟨hlive, hmem, hring⟩ := hlevel y hy
    rw [hring, hb.member] at hp
    have hside := (ht.pure p y.1 hp.1 (by rw [hp.2]; exact hb.home y.1 hlive)).1
    exact ⟨hb.resting_iff.mpr hp.1, hside.trans (ht.asks.sides y.1 hmem)⟩
  · rintro ⟨hp, hside⟩
    rw [hb.resting_iff] at hp
    obtain ⟨ℓ, hℓ⟩ := hb.level_of_mem (hb.mem_slotOf hp)
    obtain ⟨hlive, -, hslot⟩ := hb.level _ ℓ hℓ
    have hmem := ht.mem ℓ hlive ((ht.pure p ℓ hp hℓ).1.symm.trans hside)
    exact ⟨_, List.mem_map_of_mem hmem, by rw [show priceToIndex (b.levelPrice ℓ) = _ from hslot]; exact hb.mem_slotOf hp⟩

theorem keeps_size : Keeps (fun _ _ => True) fun b _ _ => b.orderPool.size = ME_MAX_ORDER_IDS where
  fill _ h _ _ _ := h
  fillAll _ h _ _ _ _ hr _ := hr.size.trans h
  accept _ h _ hx := by rw [hx]; exact h
  done _ h := h
  rest _ h _ _ _ _ _ hadd _ := hadd.size.trans h
  reject _ h _ := h
  cancel _ h _ _ _ hr _ := hr.size.trans h

/-- What the check makes of any book that clean requests can make, printed with or without its orders. -/
theorem run_outcome (h : Reaches call (fun b r => Clean (fun _ => False) b r) (fresh strict) rs b) (tickerId : TickerId) (detailed : Bool) :
    ∃ l, b.Asks l ∧ Reads (toString tickerId detailed true) b (b.outcome tickerId detailed l) := by
  obtain ⟨ring, hb, ls, ht, -⟩ := keeps_orderly.run ⟨[], tidy_fresh (fun _ => False) strict, nofun⟩ h
  obtain ⟨-, -, horders⟩ := keeps_size.run rfl (h.mono fun _ _ _ => trivial)
  obtain ⟨hrings, hasks⟩ := ht.rings hb (levelPool_run h).size horders
  exact ⟨_, hasks, hrings.reads_toString ht.bids hasks.rising tickerId detailed⟩

end TradingEcosystem.MEOrderBook
