import Mathlib.Data.List.Basic
import Mathlib.Tactic

/-! Price-time priority over arbitrary orders and prices. The offers of a side stand in line, the
best price first and at one price the oldest first; an incoming order goes along the line. -/
namespace TradingEcosystem.PriceTime
variable {ι π : Type}

/-- What a resting order offers. -/
structure Offer (ι π : Type) where
  order : ι
  price : π
  qty : Nat
  deriving DecidableEq

/-- What the incoming order took from a resting order, and what it had left then. -/
structure Take (ι π : Type) where
  order : ι
  price : π
  qty : Nat
  leaves : Nat
  deriving DecidableEq

structure Outcome (ι π : Type) where
  takes : List (Take ι π)
  leaves : Nat
  rest : List (Offer ι π)
  deriving DecidableEq

/-- What is left of an offer after `taken`. -/
def Offer.remainder (o : Offer ι π) (taken : Nat) : List (Offer ι π) :=
  if taken = o.qty then [] else [{ o with qty := o.qty - taken }]

variable [LT π] [DecidableLT π] {limit : π} {o : Offer ι π} {os : List (Offer ι π)} {leaves : Nat}

/-- The incoming order takes what it needs of each offer, until it needs nothing or the price
exceeds its limit. -/
def walk (limit : π) : List (Offer ι π) → Nat → Outcome ι π
  | [], leaves => ⟨[], leaves, []⟩
  | o :: os, leaves =>
    if leaves = 0 ∨ limit < o.price then ⟨[], leaves, o :: os⟩
    else
      let taken := min leaves o.qty
      let after := walk limit os (leaves - taken)
      ⟨⟨o.order, o.price, taken, leaves - taken⟩ :: after.takes, after.leaves, o.remainder taken ++ after.rest⟩

theorem walk_stop (h : leaves = 0 ∨ limit < o.price) : walk limit (o :: os) leaves = ⟨[], leaves, o :: os⟩ := by
  rw [walk, if_pos h]

theorem walk_zero : walk limit os 0 = ⟨[], 0, os⟩ := by
  cases os with
  | nil => rfl
  | cons o os => exact walk_stop (.inl rfl)

/-- The order that is served in full by one offer. -/
theorem walk_part (h0 : leaves ≠ 0) (hprice : ¬ limit < o.price) (hlt : leaves < o.qty) :
    walk limit (o :: os) leaves = ⟨[⟨o.order, o.price, leaves, 0⟩], 0, { o with qty := o.qty - leaves } :: os⟩ := by
  rw [walk, if_neg (by simp [h0, hprice])]
  simp [Nat.min_eq_left hlt.le, walk_zero, Offer.remainder, hlt.ne]

/-- The order that uses an offer up goes on with what it still needs. -/
theorem walk_all (h0 : leaves ≠ 0) (hprice : ¬ limit < o.price) (hle : o.qty ≤ leaves) :
    walk limit (o :: os) leaves =
      ⟨⟨o.order, o.price, o.qty, leaves - o.qty⟩ :: (walk limit os (leaves - o.qty)).takes,
        (walk limit os (leaves - o.qty)).leaves, (walk limit os (leaves - o.qty)).rest⟩ := by
  rw [walk, if_neg (by simp [h0, hprice])]
  simp [Nat.min_eq_right hle, Offer.remainder]

/-- Only offers are taken from. -/
theorem order_of_take {t : Take ι π} (h : t ∈ (walk limit os leaves).takes) : t.order ∈ os.map Offer.order := by
  induction os generalizing leaves with
  | nil => simp [walk] at h
  | cons o os ih =>
    rw [walk] at h
    split_ifs at h with hstop
    · simp at h
    · rcases List.mem_cons.mp h with rfl | h
      · exact List.mem_cons_self ..
      · exact List.mem_cons_of_mem _ (ih h)

/-- Two offers at the limit, the first one used up, and one above it. -/
example : walk 101 [⟨'a', 100, 5⟩, ⟨'b', 101, 9⟩, ⟨'c', 102, 7⟩] 12 =
    ⟨[⟨'a', 100, 5, 7⟩, ⟨'b', 101, 7, 0⟩], 0, [⟨'b', 101, 2⟩, ⟨'c', 102, 7⟩]⟩ := by decide

end TradingEcosystem.PriceTime
