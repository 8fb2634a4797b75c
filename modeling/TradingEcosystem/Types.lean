import Mathlib.Data.UInt
import Mathlib.Data.String.Lemmas
import Mathlib.Tactic

/-! Integer types, sentinels, sides and limits of `types.h`, and the ways a C++
call can fail to return. Fixed-width integers are Lean's own. -/
namespace TradingEcosystem

abbrev OrderId := UInt64
abbrev TickerId := UInt32
abbrev ClientId := UInt32
abbrev Price := Int64
abbrev Qty := UInt32
abbrev Priority := UInt64
abbrev Nanos := Int64

def orderIdInvalid : OrderId := 0xffffffffffffffff
def tickerIdInvalid : TickerId := 0xffffffff
def clientIdInvalid : ClientId := 0xffffffff
def priceInvalid : Price := Int64.maxValue
def qtyInvalid : Qty := 0xffffffff
def priorityInvalid : Priority := 0xffffffffffffffff

/-- `enum class Side : int8_t`. An object of the type may hold any byte, so the
enumerators are three values of a one-byte type. -/
structure Side where
  byte : Int8
  deriving DecidableEq, Repr

namespace Side
def INVALID : Side := ⟨0⟩
def BUY : Side := ⟨1⟩
def SELL : Side := ⟨-1⟩

@[simp] theorem buy_ne_sell : BUY ≠ SELL := by decide
@[simp] theorem sell_ne_buy : SELL ≠ BUY := by decide
end Side

def ME_MAX_TICKERS : Nat := 8
def ME_MAX_NUM_CLIENTS : Nat := 256
def ME_MAX_PRICE_LEVELS : Nat := 256
def ME_MAX_ORDER_IDS : Nat := 1024 * 1024
def ME_MAX_CLIENT_UPDATES : Nat := 256 * 1024

/-- Why a call does not return. A failed `ASSERT` and a `FATAL` leave the process
with their message; an exception leaving a `noexcept` function terminates it. A `memcpy`
of overlapping ranges or past the end of its buffer is undefined. -/
inductive Fault where
  | nullDeref
  | freedDeref
  | assertFailed (msg : String)
  | fatal (msg : String)
  | outOfRange
  | overlap
  | overrun
  | diverges
  deriving DecidableEq, Repr

/-- A fault of a pointer or of an endless loop. -/
def Fault.OfPointer : Fault → Prop
  | .nullDeref | .freedDeref | .diverges => True
  | .assertFailed _ | .fatal _ | .outOfRange | .overlap | .overrun => False

/-- A fault of a pointer, of a pool or of an endless loop. -/
def Fault.OfHeap : Fault → Prop
  | .nullDeref | .freedDeref | .assertFailed _ | .diverges => True
  | .fatal _ | .outOfRange | .overlap | .overrun => False

theorem Fault.OfPointer.ofHeap {f : Fault} (h : f.OfPointer) : f.OfHeap := by
  cases f <;> trivial

/-! ## The texts of the types -/

/-- The text of a number: the sentinel of its type is shown by name. -/
def unlessInvalid {α : Type} [DecidableEq α] (invalid : α) (to_string : α → String) (a : α) : String :=
  if a = invalid then "INVALID" else to_string a

def orderIdToString : OrderId → String := unlessInvalid orderIdInvalid fun orderId => orderId.toNat.repr
def tickerIdToString : TickerId → String := unlessInvalid tickerIdInvalid fun tickerId => tickerId.toNat.repr
def clientIdToString : ClientId → String := unlessInvalid clientIdInvalid fun clientId => clientId.toNat.repr
def priceToString : Price → String := unlessInvalid priceInvalid fun price => price.toInt.repr
def qtyToString : Qty → String := unlessInvalid qtyInvalid fun qty => qty.toNat.repr
def priorityToString : Priority → String := unlessInvalid priorityInvalid fun priority => priority.toNat.repr

def sideToString (side : Side) : String :=
  if side = .BUY then "BUY"
  else if side = .SELL then "SELL"
  else if side = .INVALID then "INVALID"
  else "UNKNOWN"

theorem length_unlessInvalid_le {α : Type} [DecidableEq α] {invalid : α} {to_string : α → String} {n : Nat} (hn : 7 ≤ n)
    (h : ∀ a, (to_string a).length ≤ n) (a : α) : (unlessInvalid invalid to_string a).length ≤ n := by
  unfold unlessInvalid
  split
  · exact hn
  · exact h a

theorem length_orderIdToString_le (orderId : OrderId) : (orderIdToString orderId).length ≤ 20 :=
  length_unlessInvalid_le (by decide)
    (fun a => (Nat.length_repr_le_iff (by decide)).mpr (a.toNat_lt.trans (by decide))) orderId

theorem length_qtyToString_le (qty : Qty) : (qtyToString qty).length ≤ 10 :=
  length_unlessInvalid_le (by decide)
    (fun a => (Nat.length_repr_le_iff (by decide)).mpr (a.toNat_lt.trans (by decide))) qty

theorem length_priceToString_le (price : Price) : (priceToString price).length ≤ 20 := by
  refine length_unlessInvalid_le (by decide) (fun a => ?_) price
  have hlow := a.le_toInt
  have hhigh := a.toInt_lt
  cases e : a.toInt with
  | ofNat n =>
    rw [Int.ofNat_eq_natCast] at e
    have hn : n.repr.length ≤ 20 := (Nat.length_repr_le_iff (by decide)).mpr (by omega)
    exact hn
  | negSucc n =>
    have hn : (n + 1).repr.length ≤ 19 := (Nat.length_repr_le_iff (by decide)).mpr (by omega)
    have happend : ("-" ++ (n + 1).repr).length ≤ 20 := by
      rw [String.length_append]
      exact Nat.add_le_add (by decide : "-".length ≤ 1) hn
    exact happend

end TradingEcosystem
