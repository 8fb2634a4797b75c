import Mathlib.Tactic

/-! Templates: texts with slots, into which values are filled from the left. A mark is a slot, and
two marks in a row are one mark of the text. -/
namespace TradingEcosystem.Template
variable {α β γ : Type}

inductive Item (α : Type) where
  | copy (a : α)
  | slot
  deriving DecidableEq

/-- A template as it is read from the left. -/
def items [DecidableEq α] (mark : α) : List α → List (Item α)
  | [] => []
  | [a] => if a = mark then [.slot] else [.copy a]
  | a :: b :: l =>
    if a = mark then
      if b = mark then .copy mark :: items mark l else .slot :: items mark (b :: l)
    else .copy a :: items mark (b :: l)

def slots : List (Item α) → Nat
  | [] => 0
  | .copy _ :: ps => slots ps
  | .slot :: ps => slots ps + 1

/-- The text with the values `vs` in its slots, up to the first slot that no value is left for. -/
def fill (copy : α → β) (value : γ → List β) : List (Item α) → List γ → List β
  | [], _ => []
  | .copy a :: ps, vs => copy a :: fill copy value ps vs
  | .slot :: ps, v :: vs => value v ++ fill copy value ps vs
  | .slot :: _, [] => []

section Items
variable [DecidableEq α] {mark a : α} {l : List α}

theorem items_copy (h : a ≠ mark) (l : List α) : items mark (a :: l) = .copy a :: items mark l := by
  cases l with
  | nil => exact if_neg h
  | cons b l => exact if_neg h

theorem items_doubled (mark : α) (l : List α) : items mark (mark :: mark :: l) = .copy mark :: items mark l := by
  rw [items, if_pos rfl, if_pos rfl]

theorem items_slot (h : l.head? ≠ some mark) : items mark (mark :: l) = .slot :: items mark l := by
  cases l with
  | nil => exact if_pos rfl
  | cons b l =>
    have hb : b ≠ mark := fun e => h (congrArg some e)
    rw [items, if_pos rfl, if_neg hb]

end Items

end TradingEcosystem.Template
