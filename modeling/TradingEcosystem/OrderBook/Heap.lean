import TradingEcosystem.OrderBook.Steps
import TradingEcosystem.Library.LinkedRing

/-! The invariant of the book's heap: the hash map, the level pool, the order rings,
the order pool and the index belong together. Level links and best-price pointers
have no part in it. -/
namespace TradingEcosystem.MEOrderBook
open Program LinkedRing
variable {b b' : MEOrderBook} {ring : Fin ME_MAX_PRICE_LEVELS → List OrderPtr} {s s' : Fin ME_MAX_PRICE_LEVELS}
  {p q : OrderPtr} {ℓ ℓ' : LevelPtr}

abbrev Slot := Fin ME_MAX_PRICE_LEVELS
abbrev nextOrder (b : MEOrderBook) (p : OrderPtr) : Option OrderPtr := (b.orderPool.get p).nextOrder
abbrev prevOrder (b : MEOrderBook) (p : OrderPtr) : Option OrderPtr := (b.orderPool.get p).prevOrder
abbrev slotOf (b : MEOrderBook) (p : OrderPtr) : Slot := priceToIndex (b.orderPool.get p).price

/-- An order without its links. -/
def content (b : MEOrderBook) (p : OrderPtr) : MEOrder :=
  { b.orderPool.get p with prevOrder := none, nextOrder := none }

theorem view_of_content {γ : Type} {p' : OrderPtr} (v : MEOrder → γ) (h : b'.content p' = b.content p)
    (hv : ∀ o : MEOrder, v { o with prevOrder := none, nextOrder := none } = v o := by intro; rfl) :
    v (b'.orderPool.get p') = v (b.orderPool.get p) := by
  rw [← hv (b'.orderPool.get p'), ← hv (b.orderPool.get p)]
  exact congrArg v h

/-- `ring s` lists the orders of slot `s` from the first one. -/
structure HeapInv (b : MEOrderBook) (ring : Slot → List OrderPtr) : Prop where
  empty : ∀ s, b.priceOrdersAtPriceHashMap s = none ↔ ring s = []
  level : ∀ s ℓ, b.priceOrdersAtPriceHashMap s = some ℓ → b.ordersAtPricePool.Live ℓ ∧
    (b.ordersAtPricePool.get ℓ).firstMeOrder = (ring s).head? ∧
    priceToIndex (b.ordersAtPricePool.get ℓ).price = s
  home : ∀ ℓ, b.ordersAtPricePool.Live ℓ →
    b.priceOrdersAtPriceHashMap (priceToIndex (b.ordersAtPricePool.get ℓ).price) = some ℓ
  links : ∀ s, Ring False b.nextOrder b.prevOrder (ring s)
  nodup : ∀ s, (ring s).Nodup
  member : ∀ s p, p ∈ ring s ↔ b.orderPool.Live p ∧ b.slotOf p = s
  indexed : ∀ c k p, b.cidOidToOrder c k = some p → b.orderPool.Live p ∧
    (b.orderPool.get p).clientId = c ∧ (b.orderPool.get p).clientOrderId = k
  keyed : ∀ p, b.orderPool.Live p → (b.orderPool.get p).clientId.toNat < ME_MAX_NUM_CLIENTS ∧
    (b.orderPool.get p).clientOrderId.toNat < ME_MAX_ORDER_IDS
  orderBound : ∀ p, b.orderPool.Live p → p < b.orderPool.size
  orderCursor : b.orderPool.nextFreeIndex < b.orderPool.size
  levelBound : ∀ ℓ, b.ordersAtPricePool.Live ℓ → ℓ < b.ordersAtPricePool.size
  levelCursor : b.ordersAtPricePool.nextFreeIndex < b.ordersAtPricePool.size

/-- An order held in the order ring of some level of the hash map. -/
def Resting (b : MEOrderBook) (p : OrderPtr) : Prop :=
  ∃ s ℓ d, b.priceOrdersAtPriceHashMap s = some ℓ ∧ (b.ordersAtPricePool.get ℓ).firstMeOrder = some d ∧
    Relation.ReflTransGen (fun a c => b.nextOrder a = some c) d p

theorem heap_fresh (strict : Bool) : HeapInv (fresh strict) (fun _ => []) where
  empty _ := by simp [fresh]
  level _ _ h := by simp [fresh] at h
  home _ h := by simp [fresh, MemPool.Live, MemPool.ofSize] at h
  links _ := .nil
  nodup _ := .nil
  member _ _ := by simp [fresh, MemPool.Live, MemPool.ofSize]
  indexed _ _ _ h := by simp [fresh] at h
  keyed _ h := by simp [fresh, MemPool.Live, MemPool.ofSize] at h
  orderBound _ h := by simp [fresh, MemPool.Live, MemPool.ofSize] at h
  orderCursor := Nat.two_pow_pos 20
  levelBound _ h := by simp [fresh, MemPool.Live, MemPool.ofSize] at h
  levelCursor := Nat.two_pow_pos 8

/-! ## What it gives for one order -/

namespace HeapInv
variable (hb : HeapInv b ring)
include hb

theorem mem_slotOf (hp : b.orderPool.Live p) : p ∈ ring (b.slotOf p) := (hb.member _ _).mpr ⟨hp, rfl⟩

theorem level_of_mem (hp : p ∈ ring s) : ∃ ℓ, b.priceOrdersAtPriceHashMap s = some ℓ := by
  cases h : b.priceOrdersAtPriceHashMap s with
  | some ℓ => exact ⟨ℓ, rfl⟩
  | none => rw [(hb.empty s).mp h] at hp; cases hp

theorem head_of_level (h : b.priceOrdersAtPriceHashMap s = some ℓ) :
    ∃ p m, ring s = p :: m ∧ (b.ordersAtPricePool.get ℓ).firstMeOrder = some p := by
  have hne : ring s ≠ [] := fun e => by rw [(hb.empty s).mpr e] at h; cases h
  obtain ⟨p, m, hr⟩ := List.exists_cons_of_ne_nil hne
  exact ⟨p, m, hr, by rw [(hb.level s ℓ h).2.1, hr]; rfl⟩

theorem slot_inj (h : b.priceOrdersAtPriceHashMap s = some ℓ) (h' : b.priceOrdersAtPriceHashMap s' = some ℓ) :
    s = s' := (hb.level s ℓ h).2.2.symm.trans (hb.level s' ℓ h').2.2

/-- The resting orders are the blocks of the order pool in use. -/
theorem resting_iff : b.Resting p ↔ b.orderPool.Live p := by
  constructor
  · rintro ⟨s, ℓ, d, hs, hd, hreach⟩
    have hh := (hb.level s ℓ hs).2.1
    rw [hd] at hh
    exact ((hb.member s p).mp (((hb.links s).reach_iff hh.symm).mp hreach)).1
  · intro hp
    have hm := hb.mem_slotOf hp
    obtain ⟨ℓ, hℓ⟩ := hb.level_of_mem hm
    obtain ⟨d, m, hr, hf⟩ := hb.head_of_level hℓ
    exact ⟨_, ℓ, d, hℓ, hf, ((hb.links _).reach_iff (by rw [hr]; rfl)).mpr hm⟩

/-- One slot gets a new ring, and the links of the other rings stay. -/
theorem links_update {l : List OrderPtr} (hl : Ring False b'.nextOrder b'.prevOrder l)
    (hlinks : ∀ t ≠ s, ∀ q ∈ ring t, b'.nextOrder q = b.nextOrder q ∧ b'.prevOrder q = b.prevOrder q) (t : Slot) :
    Ring False b'.nextOrder b'.prevOrder (Function.update ring s l t) := by
  by_cases ht : t = s
  · subst ht
    rwa [Function.update_self]
  · rw [Function.update_of_ne ht]
    exact (hb.links t).congr (fun q hq => (hlinks t ht q hq).1) (fun q hq => (hlinks t ht q hq).2)

theorem nodup_update {l : List OrderPtr} (hl : l.Nodup) (t : Slot) : (Function.update ring s l t).Nodup := by
  by_cases ht : t = s
  · subst ht
    rwa [Function.update_self]
  · rw [Function.update_of_ne ht]
    exact hb.nodup t

end HeapInv

/-- The invariant reads nothing but the hash map, the index, both pools without level
links, and of the orders their links, prices and keys. -/
theorem HeapInv.congr (hb : HeapInv b ring) (hs : b'.priceOrdersAtPriceHashMap = b.priceOrdersAtPriceHashMap)
    (hi : b'.cidOidToOrder = b.cidOidToOrder)
    (hlive : ∀ p, b'.orderPool.Live p ↔ b.orderPool.Live p)
    (hsize : b'.orderPool.size = b.orderPool.size) (hcur : b'.orderPool.nextFreeIndex = b.orderPool.nextFreeIndex)
    (hlinks : ∀ p, b'.nextOrder p = b.nextOrder p ∧ b'.prevOrder p = b.prevOrder p)
    (hkeys : ∀ p, (b'.orderPool.get p).price = (b.orderPool.get p).price ∧
      (b'.orderPool.get p).clientId = (b.orderPool.get p).clientId ∧
      (b'.orderPool.get p).clientOrderId = (b.orderPool.get p).clientOrderId)
    (hlevel : ∀ ℓ, (b'.ordersAtPricePool.Live ℓ ↔ b.ordersAtPricePool.Live ℓ) ∧
      (b'.ordersAtPricePool.get ℓ).firstMeOrder = (b.ordersAtPricePool.get ℓ).firstMeOrder ∧
      (b'.ordersAtPricePool.get ℓ).price = (b.ordersAtPricePool.get ℓ).price)
    (hlsize : b'.ordersAtPricePool.size = b.ordersAtPricePool.size)
    (hlcur : b'.ordersAtPricePool.nextFreeIndex = b.ordersAtPricePool.nextFreeIndex) : HeapInv b' ring where
  empty s := by rw [hs]; exact hb.empty s
  level s ℓ h := by
    rw [hs] at h
    rw [(hlevel ℓ).1, (hlevel ℓ).2.1, (hlevel ℓ).2.2]
    exact hb.level s ℓ h
  home ℓ h := by
    rw [hs, (hlevel ℓ).2.2]
    exact hb.home ℓ ((hlevel ℓ).1.mp h)
  links s := (hb.links s).congr (fun p _ => (hlinks p).1) (fun p _ => (hlinks p).2)
  nodup := hb.nodup
  member s p := by rw [hlive, slotOf, (hkeys p).1]; exact hb.member s p
  indexed c k p h := by
    rw [hi] at h
    rw [hlive, (hkeys p).2.1, (hkeys p).2.2]
    exact hb.indexed c k p h
  keyed p h := by
    rw [(hkeys p).2.1, (hkeys p).2.2]
    exact hb.keyed p ((hlive p).mp h)
  orderBound p h := by rw [hsize]; exact hb.orderBound p ((hlive p).mp h)
  orderCursor := by rw [hsize, hcur]; exact hb.orderCursor
  levelBound ℓ h := by rw [hlsize]; exact hb.levelBound ℓ ((hlevel ℓ).1.mp h)
  levelCursor := by rw [hlsize, hlcur]; exact hb.levelCursor

end TradingEcosystem.MEOrderBook
