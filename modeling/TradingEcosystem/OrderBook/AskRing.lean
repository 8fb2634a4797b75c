import TradingEcosystem.OrderBook.Removal
import TradingEcosystem.OrderBook.Resting

/-! The ring of the levels behind `asks_at_price_`, cheapest first, under insertion and
removal. A level put behind the last one gets no forward link, so the ring may be loose. -/
namespace TradingEcosystem.MEOrderBook
open Program LinkedRing
variable {b b' : MEOrderBook} {l l₁ l₂ : List LevelPtr} {n h t a c ℓ : LevelPtr} {u : Unit} {after : Bool}
  {target : Option LevelPtr}

abbrev nextEntry (b : MEOrderBook) (ℓ : LevelPtr) : Option LevelPtr := (b.ordersAtPricePool.get ℓ).nextEntry
abbrev prevEntry (b : MEOrderBook) (ℓ : LevelPtr) : Option LevelPtr := (b.ordersAtPricePool.get ℓ).prevEntry
abbrev levelSide (b : MEOrderBook) (ℓ : LevelPtr) : Side := (b.ordersAtPricePool.get ℓ).side
abbrev levelPrice (b : MEOrderBook) (ℓ : LevelPtr) : Price := (b.ordersAtPricePool.get ℓ).price

/-- `l` lists the levels from `asks_at_price_`, the cheapest first. -/
structure AskRing (b : MEOrderBook) (l : List LevelPtr) : Prop where
  head : b.asksAtPrice = l.head?
  links : Ring True b.nextEntry b.prevEntry l
  nodup : l.Nodup
  rising : l.Pairwise fun ℓ ℓ' => b.levelPrice ℓ < b.levelPrice ℓ'
  sides : ∀ ℓ ∈ l, b.levelSide ℓ = .SELL

theorem get_writeLevel (p q : LevelPtr) (f : MEOrdersAtPrice → MEOrdersAtPrice) :
    (b.writeLevel p f).ordersAtPricePool.get q =
      if q = p then f (b.ordersAtPricePool.get p) else b.ordersAtPricePool.get q := by
  rw [writeLevel_ordersAtPricePool, MemPool.get_write]

/-- New links and a new best level, for levels that are otherwise as they were. -/
theorem AskRing.of_relinked {l' : List LevelPtr} (hrel : Relinked b b')
    (hhead : b'.asksAtPrice = l'.head?) (hlinks : Ring True b'.nextEntry b'.prevEntry l') (hnodup : l'.Nodup)
    (hrising : l'.Pairwise fun ℓ ℓ' => b.levelPrice ℓ < b.levelPrice ℓ') (hsides : ∀ ℓ ∈ l', b.levelSide ℓ = .SELL) :
    AskRing b' l' where
  head := hhead
  links := hlinks
  nodup := hnodup
  rising := hrising.imp fun hlt => by rwa [levelPrice, levelPrice, hrel.levelPrice, hrel.levelPrice]
  sides ℓ hℓ := by rw [levelSide, hrel.levelSide]; exact hsides ℓ hℓ

/-- A level without its first order. -/
def levelView (b : MEOrderBook) (ℓ : LevelPtr) : MEOrdersAtPrice := { b.ordersAtPricePool.get ℓ with firstMeOrder := none }

theorem view_of_level {γ : Type} (v : MEOrdersAtPrice → γ) (h : b'.levelView ℓ = b.levelView ℓ)
    (hv : ∀ l : MEOrdersAtPrice, v { l with firstMeOrder := none } = v l := by intro; rfl) :
    v (b'.ordersAtPricePool.get ℓ) = v (b.ordersAtPricePool.get ℓ) := by
  rw [← hv (b'.ordersAtPricePool.get ℓ), ← hv (b.ordersAtPricePool.get ℓ)]
  exact congrArg v h

theorem AskRing.congr (hr : AskRing b l) (hasks : b'.asksAtPrice = b.asksAtPrice)
    (hview : ∀ ℓ ∈ l, b'.levelView ℓ = b.levelView ℓ) : AskRing b' l where
  head := hasks.trans hr.head
  links := hr.links.congr (fun ℓ hℓ => view_of_level MEOrdersAtPrice.nextEntry (hview ℓ hℓ))
    fun ℓ hℓ => view_of_level MEOrdersAtPrice.prevEntry (hview ℓ hℓ)
  nodup := hr.nodup
  rising := hr.rising.imp_of_mem fun hx hy hlt => by
    rwa [levelPrice, levelPrice, view_of_level MEOrdersAtPrice.price (hview _ hx),
      view_of_level MEOrdersAtPrice.price (hview _ hy)]
  sides ℓ hℓ := (view_of_level MEOrdersAtPrice.side (hview ℓ hℓ)).trans (hr.sides ℓ hℓ)

/-! ## The search for the place of a new level -/

theorem addAfter_sell {x y : MEOrdersAtPrice} (hx : x.side = .SELL) : addAfter x y = decide (y.price < x.price) := by
  have hb : (x.side = .BUY) = False := by rw [hx]; exact eq_false Side.sell_ne_buy
  simp [addAfter, hx]

/-- Every level of `l` before the place of `n` is cheaper than `n`. -/
abbrev Below (b : MEOrderBook) (n : LevelPtr) (l : List LevelPtr) : Prop := ∀ ℓ ∈ l, b.levelPrice ℓ < b.levelPrice n

/-- The end of the search: `n` belongs behind all levels, or in front of `t`. -/
def Located (b : MEOrderBook) (l : List LevelPtr) (n h : LevelPtr) (r : Bool × Option LevelPtr) : Prop :=
  (r = (true, some h) ∧ Below b n l) ∨
    ∃ l₁ t l₂, l = l₁ ++ t :: l₂ ∧ r = (false, some t) ∧ Below b n l₁ ∧ ¬ b.levelPrice t < b.levelPrice n

/-- A point of the search: it is over, or will test `t`, or is about to follow a null pointer. -/
def Searching (b : MEOrderBook) (l : List LevelPtr) (n h : LevelPtr) (after : Bool) (target : Option LevelPtr) : Prop :=
  Located b l n h (after, target) ∨
    (after = true ∧ ∃ l₁ t l₂, l = l₁ ++ t :: l₂ ∧ l₁ ≠ [] ∧ target = some t ∧ Below b n l₁) ∨
    (after = true ∧ target = none)

private theorem addAfterLoop_ok (hr : AskRing b l) (hh : l.head? = some h) (hside : b.levelSide n = .SELL) {fuel : Nat}
    (hs : Searching b l n h after target) {r : Bool × Option LevelPtr}
    (he : addAfterLoop n (some h) fuel after target b = .ok r b') : b' = b ∧ Located b l n h r := by
  induction fuel generalizing after target with
  | zero => cases he
  | succ fuel ih =>
    rw [addAfterLoop] at he
    split_ifs at he with hgo
    · rw [Bool.and_eq_true, bne_iff_ne] at hgo
      obtain ⟨rfl, hne⟩ := hgo
      simp only [bind_eq_ok, level_ok] at he
      obtain ⟨new, b₁, ⟨_, hn, -, rfl, rfl⟩, -, b₁, ⟨t, rfl, -, rfl, rfl⟩, he⟩ := he
      cases hn
      rw [addAfter_sell hside] at he
      have hsplit : ∃ l₁ l₂, l = l₁ ++ t :: l₂ ∧ l₁ ≠ [] ∧ Below b₁ n l₁ := by
        rcases hs with (⟨hc, -⟩ | ⟨_, _, _, -, hc, -⟩) | ⟨-, l₁, t', l₂, hl, hl₁, ht, hb⟩ | ⟨-, hc⟩
        · exact absurd (congrArg Prod.snd hc) hne
        · cases congrArg Prod.fst hc
        · cases ht
          exact ⟨l₁, l₂, hl, hl₁, hb⟩
        · cases hc
      obtain ⟨l₁, l₂, hl, hl₁, hbelow⟩ := hsplit
      by_cases ht : b₁.levelPrice t < b₁.levelPrice n
      · rw [if_pos (by simpa using ht)] at he
        refine ih ?_ he
        have hbelow' : Below b₁ n (l₁ ++ [t]) := by
          intro ℓ hℓ
          rcases List.mem_append.mp hℓ with hℓ | hℓ
          · exact hbelow ℓ hℓ
          · rw [List.mem_singleton.mp hℓ]; exact ht
        have hlinks := hr.links
        rw [hl] at hlinks
        rcases hlinks.next_of_split with hnext | ⟨-, hnext, -⟩
        · cases l₂ with
          | nil =>
            -- the last level: its link leads back to the best one
            rw [List.nil_append, ← hl, hh] at hnext
            exact .inl (.inl ⟨congrArg (Prod.mk true) hnext, hl ▸ hbelow'⟩)
          | cons c l₂ =>
            exact .inr (.inl ⟨rfl, l₁ ++ [t], c, l₂, by rw [hl]; simp, by simp, hnext, hbelow'⟩)
        · exact .inr (.inr ⟨rfl, hnext⟩)
      · rw [if_neg (by simpa using ht)] at he
        exact ih (.inl (.inr ⟨l₁, t, l₂, hl, rfl, hbelow, ht⟩)) he
    · cases he
      refine ⟨rfl, ?_⟩
      rcases hs with hf | ⟨rfl, l₁, t, l₂, hl, hl₁, rfl, -⟩ | ⟨rfl, rfl⟩
      · exact hf
      · -- a level behind the best one is not the best one
        have hth : t = h := by simpa using hgo
        subst hth
        obtain ⟨m, hm⟩ := List.head?_eq_some_iff.mp hh
        have hd := hr.nodup
        obtain ⟨d, k, rfl⟩ := List.exists_cons_of_ne_nil hl₁
        rw [hm] at hl
        rw [hm, hl] at hd
        injection hl with hd' _
        simp [hd'] at hd
      · simp at hgo

private theorem findTarget_ok (hr : AskRing b l) (hh : l.head? = some h) (hside : b.levelSide n = .SELL)
    {r : Bool × Option LevelPtr} (he : findTarget n (some h) b = .ok r b') : b' = b ∧ Located b l n h r := by
  obtain ⟨m, rfl⟩ := List.head?_eq_some_iff.mp hh
  simp only [findTarget, bind_eq_ok, level_ok] at he
  obtain ⟨new, b₁, ⟨_, hn, -, rfl, rfl⟩, -, b₁, ⟨_, ht, -, rfl, rfl⟩, he⟩ := he
  cases hn
  cases ht
  rw [addAfter_sell hside] at he
  by_cases hlt : b₁.levelPrice h < b₁.levelPrice n
  · rw [if_pos (by simpa using hlt)] at he
    simp only [bind_eq_ok, level_ok] at he
    obtain ⟨-, b₁, ⟨t, hnext, -, rfl, rfl⟩, he⟩ := he
    rw [addAfter_sell hside, hnext] at he
    refine addAfterLoop_ok hr hh hside ?_ he
    have hhead : b₁.nextEntry h = (m ++ [h]).head? ∨ (True ∧ b₁.nextEntry h = none ∧ m = [] ∧ ([] : List LevelPtr) ≠ []) := by
      have hlinks := hr.links
      rw [← List.nil_append (h :: m)] at hlinks
      exact hlinks.next_of_split
    have hhead := hhead.resolve_right fun e => e.2.2.2 rfl
    rw [show b₁.nextEntry h = some t from hnext] at hhead
    cases m with
    | nil =>
      cases hhead
      exact .inl (.inl ⟨by rw [decide_eq_true hlt], List.forall_mem_singleton.mpr hlt⟩)
    | cons c m =>
      cases hhead
      have hbelow : Below b₁ n [h] := List.forall_mem_singleton.mpr hlt
      by_cases hc : b₁.levelPrice t < b₁.levelPrice n
      · exact .inr (.inl ⟨decide_eq_true hc, [h], t, m, rfl, by simp, rfl, hbelow⟩)
      · exact .inl (.inr ⟨[h], t, m, rfl, by rw [decide_eq_false hc], hbelow, hc⟩)
  · rw [if_neg (by simpa using hlt)] at he
    exact addAfterLoop_ok hr hh hside (.inl (.inr ⟨[], h, m, rfl, rfl, List.forall_mem_nil _, hlt⟩)) he

/-! ## The links of a new level -/

section Links
variable {p q : LevelPtr} {f : MEOrdersAtPrice → MEOrdersAtPrice}

theorem next_writeLevel : (b.writeLevel p f).nextEntry q =
    if q = p then (f (b.ordersAtPricePool.get p)).nextEntry else b.nextEntry q := by
  rw [nextEntry, get_writeLevel, apply_ite MEOrdersAtPrice.nextEntry]

theorem prev_writeLevel : (b.writeLevel p f).prevEntry q =
    if q = p then (f (b.ordersAtPricePool.get p)).prevEntry else b.prevEntry q := by
  rw [prevEntry, get_writeLevel, apply_ite MEOrdersAtPrice.prevEntry]

theorem side_writeLevel (hf : ∀ l, (f l).side = l.side) : (b.writeLevel p f).levelSide q = b.levelSide q := by
  rw [levelSide, get_writeLevel]
  split_ifs with h
  · rw [hf, h]
  · rfl

theorem price_writeLevel (hf : ∀ l, (f l).price = l.price) : (b.writeLevel p f).levelPrice q = b.levelPrice q := by
  rw [levelPrice, get_writeLevel]
  split_ifs with h
  · rw [hf, h]
  · rfl

end Links

theorem linkAfter_ok (htn : t ≠ n) (he : linkAfter n (some t) b = .ok u b') :
    ∃ c, b.nextEntry t = some c ∧ b'.asksAtPrice = b.asksAtPrice ∧
      (∀ q, b'.nextEntry q = if q = t then some n else b.nextEntry q) ∧
      ∀ q, b'.prevEntry q = if q = c then some n else if q = n then some t else b.prevEntry q := by
  simp only [linkAfter, bind_eq_ok, setLevel_ok, level_ok] at he
  obtain ⟨-, b₁, ⟨_, hn, -, rfl⟩, lt, b₂, ⟨_, ht, -, rfl, rfl⟩, -, b₃, ⟨c, hc, -, rfl⟩, _, ht', -, rfl⟩ := he
  cases hn
  cases ht
  cases ht'
  have hc' : b.nextEntry t = some c := by rw [← hc, get_writeLevel, if_neg htn]
  refine ⟨c, hc', rfl, fun q => ?_, fun q => ?_⟩
  · simp only [next_writeLevel, get_writeLevel]
    split_ifs <;> simp_all
  · simp only [prev_writeLevel, get_writeLevel]
    split_ifs <;> simp_all

private theorem insertAfter_ok (hr : AskRing b l) (hh : l.head? = some h) (hn : n ∉ l) (hlink : b.nextEntry n = none)
    (hside : b.levelSide n = .SELL) (hbelow : Below b n l) (he : insertAfter n (some h) (some h) b = .ok u b') :
    AskRing b' (l ++ [n]) ∧ ∀ q ∉ n :: l, b'.nextEntry q = b.nextEntry q := by
  obtain ⟨m, rfl⟩ := List.head?_eq_some_iff.mp hh
  obtain ⟨t, ht⟩ : ∃ t, (h :: m).getLast? = some t := ⟨_, List.getLast?_cons⟩
  have hrel := (relinks_insertAfter _ _ _).of_ok he
  have htm := List.mem_of_getLast? ht
  have htn : t ≠ n := fun e => hn (e ▸ htm)
  have hhn : h ≠ n := fun e => hn (e ▸ List.mem_cons_self ..)
  rw [insertAfter, if_pos rfl] at he
  simp only [bind_eq_ok, level_ok] at he
  obtain ⟨-, b₁, ⟨_, hh', -, rfl, rfl⟩, he⟩ := he
  cases hh'
  rw [show (b₁.ordersAtPricePool.get h).prevEntry = some t from hr.links.back h rfl t ht] at he
  obtain ⟨c, hc, hasks, hnext, hprev⟩ := linkAfter_ok htn he
  have hch : c = h := by
    rcases hr.links.front h rfl t ht with hf | ⟨-, hf, -⟩
    · exact Option.some.inj (hc.symm.trans hf)
    · rw [hf] at hc; cases hc
  subst hch
  refine ⟨.of_relinked hrel ?_ ?_ ?_ ?_ ?_, fun q hq => ?_⟩
  · rw [hasks, hr.head]; rfl
  · refine hr.links.push_back hr.nodup hh ht ?_ ?_ ?_ (fun x hx hxt => ?_) (fun x hx hxh => ?_) hhn.symm (.inr ⟨trivial, ?_⟩)
    · rw [hnext, if_pos rfl]
    · rw [hprev, if_neg hhn.symm, if_pos rfl]
    · rw [hprev, if_pos rfl]
    · rw [hnext, if_neg hxt]
    · rw [hprev, if_neg hxh, if_neg (ne_of_mem_of_not_mem hx hn)]
    · rw [hnext, if_neg htn.symm, hlink]
  · exact (List.nodup_append.mpr ⟨hr.nodup, List.nodup_singleton n, fun x hx y hy e => hn (List.mem_singleton.mp hy ▸ e ▸ hx)⟩)
  · rw [List.pairwise_append]
    exact ⟨hr.rising, List.pairwise_singleton _ _, fun x hx y hy => by rw [List.mem_singleton.mp hy]; exact hbelow x hx⟩
  · intro ℓ hℓ
    rcases List.mem_append.mp hℓ with hℓ | hℓ
    · exact hr.sides ℓ hℓ
    · rw [List.mem_singleton.mp hℓ]; exact hside
  · rw [hnext, if_neg (ne_of_mem_of_not_mem (List.mem_cons_of_mem n htm) hq).symm]

/-- The new level between `a` and `t`, before its price is compared with the best one. -/
def inserted (b : MEOrderBook) (n a t : LevelPtr) : MEOrderBook :=
  (((b.writeLevel n fun l => { l with prevEntry := some a }).writeLevel n fun l => { l with nextEntry := some t }).writeLevel a
    fun l => { l with nextEntry := some n }).writeLevel t fun l => { l with prevEntry := some n }

theorem next_inserted (han : a ≠ n) (q : LevelPtr) : (b.inserted n a t).nextEntry q =
    if q = n then some t else if q = a then some n else b.nextEntry q := by
  simp only [inserted, next_writeLevel, get_writeLevel]
  split_ifs <;> simp_all

theorem prev_inserted (htn : t ≠ n) (q : LevelPtr) : (b.inserted n a t).prevEntry q =
    if q = n then some a else if q = t then some n else b.prevEntry q := by
  simp only [inserted, prev_writeLevel, get_writeLevel]
  split_ifs <;> simp_all

/-- A best level does not follow itself once another one was put in front of it. -/
theorem next_inserted_ne_self {loose : Prop} (hr : Ring loose b.nextEntry b.prevEntry (t :: l)) (hd : (t :: l).Nodup)
    (hn : n ∉ t :: l) (ha : b.prevEntry t = some a) : (b.inserted n a t).nextEntry t ≠ some t := by
  have hsplit : Ring loose b.nextEntry b.prevEntry ([] ++ t :: l) := hr
  have hlast : (t :: l).getLast? = some a := by
    rw [← ha, hsplit.prev_of_split, List.append_nil]
  have htn : t ≠ n := ne_of_mem_of_not_mem (List.mem_cons_self ..) hn
  rw [next_inserted (ne_of_mem_of_not_mem (List.mem_of_getLast? hlast) hn), if_neg htn]
  split_ifs with hta
  · exact fun e => htn (Option.some.inj e).symm
  · rw [hsplit.next_of_split.resolve_right fun e => e.2.2.2 rfl]
    cases l with
    | nil =>
      cases hlast
      exact absurd rfl hta
    | cons c l =>
      intro e
      obtain rfl : c = t := Option.some.inj e
      exact (List.nodup_cons.mp hd).1 (List.mem_cons_self ..)

/-- The same after the write to the former best level `t` that moves the best pointer. -/
def promoted (b : MEOrderBook) (n a t : LevelPtr) : MEOrderBook :=
  (b.inserted n a t).writeLevel t fun l => { l with
    nextEntry := if ((b.inserted n a t).ordersAtPricePool.get t).nextEntry = some t then some n
      else ((b.inserted n a t).ordersAtPricePool.get t).nextEntry }

theorem next_promoted (h : (b.inserted n a t).nextEntry t ≠ some t) (q : LevelPtr) :
    (b.promoted n a t).nextEntry q = (b.inserted n a t).nextEntry q := by
  rw [promoted, next_writeLevel, if_neg h]
  split_ifs with hq
  · rw [hq]
  · rfl

theorem prev_promoted (q : LevelPtr) : (b.promoted n a t).prevEntry q = (b.inserted n a t).prevEntry q := by
  rw [promoted, prev_writeLevel]
  by_cases hq : q = t
  · rw [if_pos hq, hq]
  · rw [if_neg hq]

private theorem insertBefore_steps (htn : t ≠ n) (ha : b.prevEntry t = some a)
    (he : insertBefore n (some h) (some t) b = .ok u b') :
    (if (b.levelSide n = Side.BUY ∧ b.levelPrice n > b.levelPrice h) ∨
        (b.levelSide n = Side.SELL ∧ b.levelPrice n < b.levelPrice h)
      then (do
        let t' ← level (some t)
        setLevel (fun l => { l with nextEntry := if t'.nextEntry = some h then some n else t'.nextEntry }) (some t)
        assignBestOrdersByPrice (b.levelSide n) (some n))
      else pure ()) (b.inserted n a t) = .ok u b' := by
  simp only [insertBefore, bind_eq_ok, setLevel_ok, level_ok] at he
  obtain ⟨_, b₁, ⟨_, ht, -, rfl, rfl⟩, -, b₂, ⟨_, hn, -, rfl⟩, -, b₃, ⟨_, hn', -, rfl⟩, _, b₄, ⟨_, ht', -, rfl, rfl⟩,
    -, b₅, ⟨a', ha', -, rfl⟩, -, b₆, ⟨_, ht'', -, rfl⟩, new, b₇, ⟨_, hn'', -, rfl, rfl⟩, best, b₈, ⟨_, hh, -, rfl, rfl⟩, he⟩ := he
  cases ht; cases ht'; cases ht''; cases hn; cases hn'; cases hn''; cases hh
  rw [get_writeLevel, if_neg htn, get_writeLevel, if_neg htn, show (b₁.ordersAtPricePool.get t).prevEntry = some a from ha] at ha'
  cases ha'
  rw [show (b₁.ordersAtPricePool.get t).prevEntry = some a from ha] at he
  have hs : (inserted b₁ n a t).levelSide n = b₁.levelSide n := by
    simp only [inserted, side_writeLevel, implies_true]
  have hp : ∀ q, (inserted b₁ n a t).levelPrice q = b₁.levelPrice q := fun q => by
    simp only [inserted, price_writeLevel, implies_true]
  rw [← hs, ← hp n, ← hp h]
  exact he

private theorem insertBefore_ok (hr : AskRing b (l₁ ++ t :: l₂)) (hh : (l₁ ++ t :: l₂).head? = some h)
    (hn : n ∉ l₁ ++ t :: l₂) (hside : b.levelSide n = .SELL) (hbelow : Below b n l₁) (hlt : b.levelPrice n < b.levelPrice t)
    (he : insertBefore n (some h) (some t) b = .ok u b') :
    AskRing b' (l₁ ++ n :: t :: l₂) ∧ ∀ q ∉ n :: (l₁ ++ t :: l₂), b'.nextEntry q = b.nextEntry q := by
  have hrel := (relinks_insertBefore _ _ _).of_ok he
  have htm : t ∈ l₁ ++ t :: l₂ := by simp
  have htn : t ≠ n := ne_of_mem_of_not_mem htm hn
  obtain ⟨a, ha⟩ : ∃ a, (t :: (l₂ ++ l₁)).getLast? = some a := ⟨_, List.getLast?_cons⟩
  have ham : a ∈ l₁ ++ t :: l₂ := by
    have := List.mem_of_getLast? ha
    simp only [List.mem_cons, List.mem_append] at this ⊢
    tauto
  have han : a ≠ n := ne_of_mem_of_not_mem ham hn
  have hprev₀ : b.prevEntry t = some a := hr.links.prev_of_split.trans ha
  have hsteps := insertBefore_steps htn hprev₀ he
  rw [hside] at hsteps
  have hnodup : (l₁ ++ n :: t :: l₂).Nodup := by
    rw [List.nodup_middle]
    exact List.nodup_cons.mpr ⟨hn, hr.nodup⟩
  have hsides : ∀ ℓ ∈ l₁ ++ n :: t :: l₂, b.levelSide ℓ = .SELL := by
    intro ℓ hℓ
    rcases List.mem_cons.mp (List.perm_middle.mem_iff.mp hℓ) with rfl | hℓ
    · exact hside
    · exact hr.sides ℓ hℓ
  have htrans : IsTrans LevelPtr fun ℓ ℓ' => b.levelPrice ℓ < b.levelPrice ℓ' := ⟨fun _ _ _ => Int64.lt_trans⟩
  have hrising := pairwise_insert hr.rising hbelow hlt
  have hframe : ∀ {q}, q ∉ n :: (l₁ ++ t :: l₂) → q ≠ n ∧ q ≠ a := fun hq =>
    ⟨fun e => hq (e ▸ List.mem_cons_self ..), (ne_of_mem_of_not_mem (List.mem_cons_of_mem n ham) hq).symm⟩
  cases l₁ with
  | nil =>
    -- the new level becomes the best one; the last test finds that `t` is not behind itself
    obtain rfl : t = h := Option.some.inj hh
    rw [if_pos (.inr ⟨rfl, hlt⟩)] at hsteps
    simp only [bind_eq_ok, level_ok, setLevel_ok, assignBestOrdersByPrice_ok] at hsteps
    obtain ⟨_, b₁, ⟨_, ht, -, rfl, rfl⟩, -, b₂, ⟨_, ht', -, rfl⟩, rfl⟩ := hsteps
    cases ht; cases ht'
    rw [if_neg Side.sell_ne_buy] at hrel ⊢
    have hself := next_inserted_ne_self hr.links hr.nodup hn hprev₀
    have hlinks := hr.links.insert_before hr.nodup hn hprev₀ (fun q => (next_promoted hself q).trans (next_inserted han q))
      (fun q => (prev_promoted q).trans (prev_inserted htn q))
    refine ⟨.of_relinked hrel rfl hlinks hnodup hrising hsides, fun q hq => ?_⟩
    exact ((next_promoted hself q).trans (next_inserted han q)).trans (by rw [if_neg (hframe hq).1, if_neg (hframe hq).2])
  | cons k l₁ =>
    obtain rfl : k = h := Option.some.inj hh
    have hkn := hbelow k (List.mem_cons_self ..)
    rw [if_neg (by simp [Int64.lt_asymm hkn])] at hsteps
    cases hsteps
    refine ⟨.of_relinked hrel ?_ ?_ hnodup hrising hsides, fun q hq => ?_⟩
    · exact hr.head
    · exact hr.links.insert_before hr.nodup hn hprev₀ (next_inserted han) (prev_inserted htn)
    · rw [next_inserted han, if_neg (hframe hq).1, if_neg (hframe hq).2]

/-- A new level to sell finds its place in the ring; the links of other levels stay. -/
theorem AskRing.insert (hr : AskRing b l) (hn : n ∉ l) (hlink : b.nextEntry n = none) (hside : b.levelSide n = .SELL)
    (hprice : ∀ ℓ ∈ l, b.levelPrice ℓ ≠ b.levelPrice n) (he : addOrdersAtPrice n b = .ok u b') :
    ∃ l', l'.Perm (n :: l) ∧ AskRing b' l' ∧ ∀ q ∉ n :: l, b'.nextEntry q = b.nextEntry q := by
  simp only [addOrdersAtPrice, bind_eq_ok, level_ok, setOrdersAtPrice_ok, bestOrdersByPrice_ok] at he
  obtain ⟨_, b₁, ⟨_, hn', -, rfl, rfl⟩, -, b₂, hb₂, best, b₃, ⟨rfl, rfl⟩, he⟩ := he
  cases hn'
  rw [show (b₁.ordersAtPricePool.get n).side = .SELL from hside, if_neg Side.sell_ne_buy] at he
  have hr₂ : AskRing b₃ l := by rw [hb₂]; exact ⟨hr.head, hr.links, hr.nodup, hr.rising, hr.sides⟩
  have hpool : b₃.ordersAtPricePool = b₁.ordersAtPricePool := by rw [hb₂]
  have hlink₂ : b₃.nextEntry n = none := by rw [nextEntry, hpool]; exact hlink
  have hside₂ : b₃.levelSide n = .SELL := by rw [levelSide, hpool]; exact hside
  have hold : ∀ q, b₃.nextEntry q = b₁.nextEntry q := fun q => by rw [nextEntry, hpool]
  rw [hr₂.head] at he
  cases l with
  | nil =>
    rw [List.head?_nil, if_pos rfl] at he
    simp only [bind_eq_ok, assignBestOrdersByPrice_ok, setLevel_ok, if_neg Side.sell_ne_buy] at he
    obtain ⟨-, b₄, rfl, _, hn', -, rfl⟩ := he
    cases hn'
    refine ⟨[n], .refl _, ⟨rfl, Ring.singleton_iff.mpr ⟨?_, ?_⟩, List.nodup_singleton n, List.pairwise_singleton _ _, ?_⟩,
      fun q hq => ?_⟩
    · rw [next_writeLevel, if_pos rfl]
    · rw [prev_writeLevel, if_pos rfl]
    · rw [List.forall_mem_singleton, side_writeLevel (by intro; rfl)]
      exact hside₂
    · rw [next_writeLevel, if_neg fun e => hq (by rw [e]; exact List.mem_cons_self ..)]
      exact hold q
  | cons h m =>
    rw [if_neg (by simp)] at he
    obtain ⟨r, b₄, hfind, he⟩ := bind_eq_ok.mp he
    obtain ⟨rfl, ⟨rfl, hbelow⟩ | ⟨l₁, t, l₂, hl, rfl, hbelow, ht⟩⟩ := findTarget_ok hr₂ rfl hside₂ hfind
    · rw [if_pos rfl] at he
      obtain ⟨hring, hframe⟩ := insertAfter_ok hr₂ rfl hn hlink₂ hside₂ hbelow he
      exact ⟨_, List.perm_append_singleton _ _, hring, fun q hq => (hframe q hq).trans (hold q)⟩
    · rw [if_neg (by simp)] at he
      have hlt : b₄.levelPrice n < b₄.levelPrice t := by
        refine Int64.lt_of_le_of_ne (Int64.not_lt.mp ht) fun e => ?_
        refine hprice t (by rw [hl]; simp) ?_
        rw [levelPrice, levelPrice, ← hpool]
        exact e.symm
      rw [hl] at hr₂ hn ⊢
      obtain ⟨hring, hframe⟩ := insertBefore_ok hr₂ (by rw [← hl]; rfl) hn hside₂ hbelow hlt he
      exact ⟨_, List.perm_middle, hring, fun q hq => (hframe q hq).trans (hold q)⟩

/-- A new level to buy is linked to itself, since `bids_at_price_` is null. -/
theorem AskRing.insert_bid (hr : AskRing b l) (hbids : b.bidsAtPrice = none) (hn : n ∉ l) (hside : b.levelSide n = .BUY)
    (he : addOrdersAtPrice n b = .ok u b') :
    AskRing b' l ∧ b'.nextEntry n = some n ∧ ∀ q ≠ n, b'.nextEntry q = b.nextEntry q := by
  simp only [addOrdersAtPrice, bind_eq_ok, level_ok, setOrdersAtPrice_ok, bestOrdersByPrice_ok] at he
  obtain ⟨_, b₁, ⟨_, hn', -, rfl, rfl⟩, -, b₂, hb₂, best, b₃, ⟨rfl, rfl⟩, he⟩ := he
  cases hn'
  rw [show (b₁.ordersAtPricePool.get n).side = .BUY from hside, if_pos rfl,
    show b₃.bidsAtPrice = none by rw [hb₂]; exact hbids, if_pos rfl] at he
  simp only [bind_eq_ok, assignBestOrdersByPrice_ok, setLevel_ok, if_true] at he
  obtain ⟨-, b₄, rfl, _, hn', -, rfl⟩ := he
  cases hn'
  have hpool : b₄.ordersAtPricePool = b₁.ordersAtPricePool := by rw [hb₂]
  have hasks : b₄.asksAtPrice = b₁.asksAtPrice := by rw [hb₂]
  have hnext : ∀ q ≠ n, (b₄.writeLevel n fun l => { l with prevEntry := some n, nextEntry := some n }).nextEntry q =
      b₁.nextEntry q := fun q hq => by rw [next_writeLevel, if_neg hq, nextEntry, hpool]
  have hprev : ∀ q ≠ n, (b₄.writeLevel n fun l => { l with prevEntry := some n, nextEntry := some n }).prevEntry q =
      b₁.prevEntry q := fun q hq => by rw [prev_writeLevel, if_neg hq, prevEntry, hpool]
  refine ⟨⟨?_, hr.links.congr (fun q hq => hnext q (ne_of_mem_of_not_mem hq hn)) fun q hq =>
    hprev q (ne_of_mem_of_not_mem hq hn), hr.nodup, hr.rising.imp fun hlt => ?_, fun q hq => ?_⟩, ?_, hnext⟩
  · rw [writeLevel_asksAtPrice, hasks]; exact hr.head
  · rw [price_writeLevel (by intro; rfl), price_writeLevel (by intro; rfl), levelPrice, levelPrice, hpool]
    exact hlt
  · rw [side_writeLevel (by intro; rfl), levelSide, hpool]
    exact hr.sides q hq
  · rw [next_writeLevel, if_pos rfl]

/-! ## The removal of a level -/

/-- The book after the level between `a` and `c` left the ring. -/
private def closed (b : MEOrderBook) (a c : LevelPtr) : MEOrderBook :=
  (b.writeLevel a fun p => { p with nextEntry := some c }).writeLevel c fun n => { n with prevEntry := some a }

private theorem next_closed (q : LevelPtr) : (b.closed a c).nextEntry q = if q = a then some c else b.nextEntry q := by
  simp only [closed, next_writeLevel, get_writeLevel]
  split_ifs <;> simp_all

private theorem prev_closed (q : LevelPtr) : (b.closed a c).prevEntry q = if q = c then some a else b.prevEntry q := by
  simp only [closed, prev_writeLevel]
  split_ifs <;> simp_all

private theorem unlinkLevel_inner {best : Option LevelPtr} {next : Option LevelPtr} (hℓ : b.ordersAtPricePool.Live ℓ)
    (ha : b.ordersAtPricePool.Live a) (haℓ : a ≠ ℓ) (hprev : b.prevEntry ℓ = some a) (hnext : b.nextEntry ℓ = next)
    (hself : next ≠ some ℓ) :
    unlinkLevel .SELL best (some ℓ) b = (do
      setLevel (fun n => { n with prevEntry := some a }) next
      if some ℓ = best then assignBestOrdersByPrice .SELL (← level (some ℓ)).nextEntry
      setLevel (fun l => { l with prevEntry := none, nextEntry := none }) (some ℓ) : BookM Unit)
        (b.writeLevel a fun p => { p with nextEntry := next }) := by
  have hget : (b.writeLevel a fun p => { p with nextEntry := next }).ordersAtPricePool.get ℓ = b.ordersAtPricePool.get ℓ := by
    rw [get_writeLevel, if_neg haℓ.symm]
  rw [unlinkLevel, bind_of_ok (level_of_live hℓ), if_neg (by rw [← hnext] at hself; exact hself),
    show (b.ordersAtPricePool.get ℓ).prevEntry = some a from hprev, bind_of_ok (setLevel_of_live ha),
    show (b.ordersAtPricePool.get ℓ).nextEntry = next from hnext, bind_of_ok (level_of_live (by simpa using hℓ)), hget,
    show (b.ordersAtPricePool.get ℓ).prevEntry = some a from hprev,
    show (b.ordersAtPricePool.get ℓ).nextEntry = next from hnext]

/-- A level beside `ℓ` in a ring. -/
private theorem beside (hd : (l₁ ++ ℓ :: l₂).Nodup) (ha : a ∈ l₁ ++ l₂) : a ≠ ℓ ∧ a ∈ l₁ ++ ℓ :: l₂ := by
  have hd := List.nodup_cons.mp (List.nodup_middle.mp hd)
  exact ⟨ne_of_mem_of_not_mem ha hd.1, List.perm_middle.mem_iff.mpr (List.mem_cons_of_mem _ ha)⟩

/-- The last level of a loose ring cannot leave: its missing link is followed. -/
theorem AskRing.unlink_loose (hr : AskRing b (l₁ ++ ℓ :: l₂)) (hlive : ∀ q ∈ l₁ ++ ℓ :: l₂, b.ordersAtPricePool.Live q)
    (hnext : b.nextEntry ℓ = none) : ∃ b', unlinkLevel .SELL b.asksAtPrice (some ℓ) b = .error .nullDeref b' := by
  by_cases halone : l₁ ++ l₂ = []
  · obtain ⟨rfl, rfl⟩ := List.append_eq_nil_iff.mp halone
    rw [(Ring.singleton_iff.mp hr.links).1] at hnext
    cases hnext
  · obtain ⟨a, ha, hprev, -⟩ := hr.links.neighbours halone
    obtain ⟨haℓ, ham⟩ := beside hr.nodup ha
    rw [unlinkLevel_inner (hlive ℓ (by simp)) (hlive a ham) haℓ hprev hnext (by simp)]
    exact ⟨_, rfl⟩

/-- A level with a forward link leaves the ring of the asks, loose or not. -/
theorem unlinkLevel_ring {loose : Prop} (hlinks : Ring loose b.nextEntry b.prevEntry (l₁ ++ ℓ :: l₂))
    (hd : (l₁ ++ ℓ :: l₂).Nodup) (hasks : b.asksAtPrice = (l₁ ++ ℓ :: l₂).head?)
    (hlive : ∀ q ∈ l₁ ++ ℓ :: l₂, b.ordersAtPricePool.Live q) (hnext : b.nextEntry ℓ ≠ none) :
    ∃ b', unlinkLevel .SELL b.asksAtPrice (some ℓ) b = .ok () b' ∧ b'.asksAtPrice = (l₁ ++ l₂).head? ∧
      Ring loose b'.nextEntry b'.prevEntry (l₁ ++ l₂) ∧ ∀ q ∉ l₁ ++ ℓ :: l₂, b'.nextEntry q = b.nextEntry q := by
  have hℓ := hlive ℓ (by simp)
  by_cases halone : l₁ ++ l₂ = []
  · obtain ⟨rfl, rfl⟩ := List.append_eq_nil_iff.mp halone
    have hself := (Ring.singleton_iff.mp hlinks).1
    refine ⟨{ b with asksAtPrice := none }, ?_, rfl, .nil, fun q hq => rfl⟩
    rw [unlinkLevel, bind_of_ok (level_of_live hℓ), if_pos hself, assignBestOrdersByPrice, if_neg Side.sell_ne_buy]
    rfl
  · obtain ⟨a, ha, hprev, ⟨c, hc, hnext⟩ | ⟨-, hn, -⟩⟩ := hlinks.neighbours halone
    · obtain ⟨haℓ, ham⟩ := beside hd ha
      obtain ⟨hcℓ, hcm⟩ := beside hd hc
      have hd' := List.nodup_cons.mp (List.nodup_middle.mp hd)
      -- the new best level
      obtain ⟨best, hbest⟩ : ∃ best, best = if some ℓ = b.asksAtPrice then some c else b.asksAtPrice := ⟨_, rfl⟩
      have hhead : best = (l₁ ++ l₂).head? := by
        rw [hbest, hasks]
        cases l₁ with
        | nil =>
          rw [List.nil_append, List.nil_append, List.head?_cons, if_pos rfl, ← hnext]
          have hl := hlinks.next_of_split.resolve_right fun e => e.2.2.2 rfl
          rw [hl]
          cases l₂ with
          | nil => exact absurd rfl halone
          | cons d l₂ => rfl
        | cons k l₁ =>
          rw [List.cons_append, List.cons_append, List.head?_cons, List.head?_cons, if_neg]
          intro e
          exact hd'.1 (Option.some.inj e ▸ List.mem_cons_self ..)
      obtain ⟨b₁, hb₁⟩ : ∃ b₁, b₁ = { b.closed a c with asksAtPrice := best }.writeLevel ℓ
        fun l => { l with prevEntry := none, nextEntry := none } := ⟨_, rfl⟩
      have hN : ∀ q ≠ ℓ, b₁.nextEntry q = if q = a then some c else b.nextEntry q := fun q hq => by
        rw [hb₁, next_writeLevel, if_neg hq]
        exact next_closed q
      have hP : ∀ q ≠ ℓ, b₁.prevEntry q = if q = c then some a else b.prevEntry q := fun q hq => by
        rw [hb₁, prev_writeLevel, if_neg hq]
        exact prev_closed q
      have heval : unlinkLevel .SELL b.asksAtPrice (some ℓ) b = .ok () b₁ := by
        have hsecond : (b.closed a c).nextEntry ℓ = some c := by rw [next_closed, if_neg haℓ.symm, hnext]
        have hstep : setLevel (fun n => { n with prevEntry := some a }) (some c)
            (b.writeLevel a fun p => { p with nextEntry := some c }) = .ok () (b.closed a c) :=
          setLevel_of_live (by simpa using hlive c hcm)
        have hℓ' : (b.closed a c).ordersAtPricePool.Live ℓ := by simpa [closed] using hℓ
        rw [unlinkLevel_inner hℓ (hlive a ham) haℓ hprev hnext (fun e => hcℓ (Option.some.inj e)), bind_of_ok hstep, hb₁, hbest]
        by_cases hb : some ℓ = b.asksAtPrice
        · rw [if_pos hb, if_pos hb, bind_of_ok (level_of_live hℓ'),
            show ((b.closed a c).ordersAtPricePool.get ℓ).nextEntry = some c from hsecond, assignBestOrdersByPrice,
            if_neg Side.sell_ne_buy, bind_of_ok (modify_apply _)]
          exact setLevel_of_live hℓ'
        · rw [if_neg hb, if_neg hb]
          exact setLevel_of_live hℓ'
      refine ⟨b₁, heval, ?_, ?_, fun q hq => ?_⟩
      · rw [hb₁]; exact hhead
      · refine hlinks.remove hd halone hprev hnext ?_ ?_ (fun x hx hxa => ?_) (fun x hx hxc => ?_)
        · rw [hN a haℓ, if_pos rfl]
        · rw [hP c hcℓ, if_pos rfl]
        · rw [hN x (beside hd hx).1, if_neg hxa]
        · rw [hP x (beside hd hx).1, if_neg hxc]
      · rw [hN q (ne_of_mem_of_not_mem (by simp) hq).symm, if_neg (ne_of_mem_of_not_mem ham hq).symm]
    · exact absurd hn hnext

/-- A level leaves the ring. -/
theorem AskRing.unlink (hr : AskRing b (l₁ ++ ℓ :: l₂)) (hlive : ∀ q ∈ l₁ ++ ℓ :: l₂, b.ordersAtPricePool.Live q)
    (hnext : b.nextEntry ℓ ≠ none) : ∃ b', unlinkLevel .SELL b.asksAtPrice (some ℓ) b = .ok () b' ∧
      AskRing b' (l₁ ++ l₂) ∧ ∀ q ∉ l₁ ++ ℓ :: l₂, b'.nextEntry q = b.nextEntry q := by
  obtain ⟨b', heval, hhead, hlinks, hframe⟩ := unlinkLevel_ring hr.links hr.nodup hr.head hlive hnext
  have hrel := (relinks_unlinkLevel _ _ _).of_ok heval
  refine ⟨b', heval, .of_relinked hrel hhead hlinks ?_ ?_ fun q hq => hr.sides q (beside hr.nodup hq).2, hframe⟩
  · exact (List.nodup_cons.mp (List.nodup_middle.mp hr.nodup)).2
  · exact hr.rising.sublist ((List.Sublist.refl l₁).append (List.sublist_cons_self ℓ l₂))

end TradingEcosystem.MEOrderBook
