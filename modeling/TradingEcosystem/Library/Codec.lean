import Mathlib.Data.Nat.Digits.Defs
import Mathlib.Data.UInt
import Mathlib.Tactic

/-! Records as bytes without padding: each field little-endian, in a fixed number of
bytes, one behind the other. -/
namespace TradingEcosystem

/-- The lowest `w` bytes of a number, the lowest first. -/
def leBytes : Nat → Nat → List UInt8
  | 0, _ => []
  | w + 1, n => UInt8.ofNat n :: leBytes w (n / 256)

def leNat (bytes : List UInt8) : Nat := Nat.ofDigits 256 (bytes.map UInt8.toNat)

@[simp] theorem length_leBytes (w n : Nat) : (leBytes w n).length = w := by
  induction w generalizing n with
  | zero => rfl
  | succ w ih => rw [leBytes, List.length_cons, ih]

theorem leNat_leBytes {w n : Nat} (h : n < 256 ^ w) : leNat (leBytes w n) = n := by
  induction w generalizing n with
  | zero =>
    have hn : n = 0 := by omega
    rw [hn]
    rfl
  | succ w ih =>
    have hdiv : n / 256 < 256 ^ w := by
      apply Nat.div_lt_of_lt_mul
      rwa [← Nat.pow_succ']
    have hlow : (UInt8.ofNat n).toNat = n % 256 := UInt8.toNat_ofNat'
    have hih : Nat.ofDigits 256 ((leBytes w (n / 256)).map UInt8.toNat) = n / 256 := ih hdiv
    rw [leNat, leBytes, List.map_cons, Nat.ofDigits_cons, hih, hlow]
    exact Nat.mod_add_div n 256

/-- Values of `α` in `width` bytes. Any bytes decode; what was encoded decodes back. -/
structure Codec (α : Type) where
  width : Nat
  encode : α → List UInt8
  decode : List UInt8 → α
  length_encode : ∀ a, (encode a).length = width
  decode_encode : ∀ a, decode (encode a) = a

namespace Codec
variable {α β : Type}

/-- Numbers of a type whose values fit into `width` bytes. -/
def word (width : Nat) (toNat : α → Nat) (ofNat : Nat → α) (small : ∀ a, toNat a < 256 ^ width)
    (inverse : ∀ a, ofNat (toNat a) = a) : Codec α where
  width := width
  encode a := leBytes width (toNat a)
  decode bytes := ofNat (leNat bytes)
  length_encode a := length_leBytes width (toNat a)
  decode_encode a := by rw [leNat_leBytes (small a), inverse]

def u8 : Codec UInt8 := word 1 UInt8.toNat UInt8.ofNat UInt8.toNat_lt fun _ => UInt8.ofNat_toNat
def u32 : Codec UInt32 := word 4 UInt32.toNat UInt32.ofNat UInt32.toNat_lt fun _ => UInt32.ofNat_toNat
def u64 : Codec UInt64 := word 8 UInt64.toNat UInt64.ofNat UInt64.toNat_lt fun _ => UInt64.ofNat_toNat

/-- The same bytes read as values of another type. -/
def map (c : Codec α) (pack : α → β) (unpack : β → α) (inverse : ∀ b, pack (unpack b) = b) : Codec β where
  width := c.width
  encode b := c.encode (unpack b)
  decode bytes := pack (c.decode bytes)
  length_encode b := c.length_encode (unpack b)
  decode_encode b := by rw [c.decode_encode, inverse]

def i8 : Codec Int8 := u8.map UInt8.toInt8 Int8.toUInt8 Int8.toInt8_toUInt8
def i64 : Codec Int64 := u64.map UInt64.toInt64 Int64.toUInt64 Int64.toInt64_toUInt64

/-- One field behind the other. -/
def prod (c : Codec α) (d : Codec β) : Codec (α × β) where
  width := c.width + d.width
  encode x := c.encode x.1 ++ d.encode x.2
  decode bytes := (c.decode (bytes.take c.width), d.decode (bytes.drop c.width))
  length_encode x := by rw [List.length_append, c.length_encode, d.length_encode]
  decode_encode x := by
    have hlen := c.length_encode x.1
    rw [List.take_left' hlen, List.drop_left' hlen, c.decode_encode, d.decode_encode]

end Codec
end TradingEcosystem
