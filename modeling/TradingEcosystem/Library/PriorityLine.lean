import Mathlib.Data.List.Sort
import TradingEcosystem.Library.PriceTime

/-! The line in which the orders of a side stand, whatever the orders are: sorted by price, and at
one price by arrival. A list that is in this order already is the line of its orders. -/
namespace TradingEcosystem.PriceTime
variable {α π τ : Type} [LE π] [LT π] [Std.IsLinearOrder π] [Std.LawfulOrderLT π] [LinearOrder τ] {price : α → π}
  {arrival : α → τ} {a c d : α} {l l' : List α}

/-- `a` is served before `c`: for its better price, or at the same price for having come first. -/
def Ahead (price : α → π) (arrival : α → τ) (a c : α) : Prop :=
  price a < price c ∨ (price a = price c ∧ arrival a < arrival c)

instance [DecidableEq π] [DecidableLT π] : DecidableRel (Ahead price arrival) := fun _ _ => inferInstanceAs (Decidable (_ ∨ _))

theorem Ahead.asymm (h : Ahead price arrival a c) : ¬ Ahead price arrival c a := by
  rintro (h' | ⟨he', h'⟩)
  · rcases h with h | ⟨he, -⟩
    · exact Std.lt_irrefl (Std.lt_trans h h')
    · exact Std.lt_irrefl (he ▸ h')
  · rcases h with h | ⟨-, h⟩
    · exact Std.lt_irrefl (he' ▸ h)
    · exact lt_asymm h h'

/-- What is not ahead of something is at best beside it. -/
theorem not_ahead_iff : ¬ Ahead price arrival c a ↔
    price a < price c ∨ (price a = price c ∧ arrival a ≤ arrival c) := by
  unfold Ahead
  constructor
  · intro h
    rw [not_or] at h
    rcases Std.lt_trichotomy (price a) (price c) with hlt | heq | hgt
    · exact .inl hlt
    · exact .inr ⟨heq, not_lt.mp fun hlt => h.2 ⟨heq.symm, hlt⟩⟩
    · exact absurd hgt h.1
  · rintro (hlt | ⟨heq, hle⟩) (hlt' | ⟨heq', hlt'⟩)
    · exact Std.lt_irrefl (Std.lt_trans hlt hlt')
    · exact Std.lt_irrefl (heq' ▸ hlt)
    · exact Std.lt_irrefl (heq ▸ hlt')
    · exact absurd hle (not_le.mpr hlt')

instance : Std.Total fun a c => ¬ Ahead price arrival c a where
  total _ _ := or_iff_not_imp_left.mpr fun h => (not_not.mp h).asymm

instance : IsTrans α fun a c => ¬ Ahead price arrival c a where
  trans _ _ _ h h' := by
    rw [not_ahead_iff] at h h' ⊢
    rcases h with h | ⟨he, h⟩ <;> rcases h' with h' | ⟨he', h'⟩
    · exact .inl (Std.lt_trans h h')
    · exact .inl (he' ▸ h)
    · exact .inl (he ▸ h')
    · exact .inr ⟨he.trans he', h.trans h'⟩

section Line
variable [DecidableEq π] [DecidableLT π]

/-- The orders in line, the first to be served in front. -/
def line (price : α → π) (arrival : α → τ) (l : List α) : List α := l.insertionSort fun a c => ¬ Ahead price arrival c a

omit [LE π] [Std.IsLinearOrder π] [Std.LawfulOrderLT π] in
theorem perm_line : (line price arrival l).Perm l := List.perm_insertionSort _ l

/-- A list in the order of the line is the line of its elements. -/
theorem line_eq (hperm : l'.Perm l) (hl' : l'.Pairwise (Ahead price arrival)) : line price arrival l = l' := by
  have hline : (line price arrival l).Pairwise fun a c => ¬ Ahead price arrival c a := List.pairwise_insertionSort _ l
  refine List.Perm.eq_of_pairwise (fun a c ha hc h h' => ?_) hline (hl'.imp Ahead.asymm) (perm_line.trans hperm.symm)
  by_contra hne
  have hmem : a ∈ l' := hperm.symm.subset (perm_line.subset ha)
  have hsymm : Std.Symm fun a c => Ahead price arrival a c ∨ Ahead price arrival c a := ⟨fun _ _ => Or.symm⟩
  have hrel := List.Pairwise.forall (hl'.imp Or.inl : l'.Pairwise fun a c => Ahead price arrival a c ∨ Ahead price arrival c a)
    hmem hc hne
  exact hrel.elim h' h

end Line

/-- Three orders at two prices, given in the order of their arrival. -/
example : line Prod.fst Prod.snd [(101, 1), (100, 2), (101, 3)] = [(100, 2), (101, 1), (101, 3)] := by decide

end TradingEcosystem.PriceTime
