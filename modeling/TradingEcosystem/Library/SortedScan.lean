import Mathlib.Data.List.Chain
import Mathlib.Tactic

/-! The check that a list is in order, made in one pass that compares each key with the one
before it. The pass starts from a key of its own. -/
namespace TradingEcosystem.SortedScan
variable {ε κ γ ι : Type} {R : κ → κ → Prop} [DecidableRel R] {key : ι → κ} {put : γ → ι → γ} {err : κ → ι → ε}
  {last start : κ} {keys : List κ} {l : List ι}

/-- One element is taken up if it comes after the last one. -/
def check (R : κ → κ → Prop) [DecidableRel R] (key : ι → κ) (put : γ → ι → γ) (err : κ → ι → ε) (acc : κ × γ) (y : ι) :
    Except ε (κ × γ) :=
  if R acc.1 (key y) then .ok (key y, put acc.2 y) else .error (err acc.1 y)

/-- The pass over a list in order takes up everything... -/
theorem scan_of_chain (h : (last :: l.map key).IsChain R) (acc : γ) :
    l.foldlM (check R key put err) (last, acc) = .ok ((l.map key).getLastD last, l.foldl put acc) := by
  induction l generalizing last acc with
  | nil => rfl
  | cons y l ih =>
    rw [List.map_cons, List.isChain_cons_cons] at h
    have hy : check R key put err (last, acc) y = .ok (key y, put acc y) := if_pos h.1
    rw [List.foldlM_cons, hy, List.map_cons, List.getLastD_cons, List.foldl_cons]
    exact ih h.2 (put acc y)

/-- ... and over any other it ends at the first element that is not behind the one before it. -/
theorem scan_of_not_chain (h : ¬ (last :: l.map key).IsChain R) :
    ∃ l₁ y l₂, l = l₁ ++ y :: l₂ ∧ (last :: l₁.map key).IsChain R ∧ ¬ R ((l₁.map key).getLastD last) (key y) ∧
      ∀ acc, l.foldlM (check R key put err) (last, acc) = .error (err ((l₁.map key).getLastD last) y) := by
  induction l generalizing last with
  | nil => exact absurd (.singleton last) h
  | cons y l ih =>
    by_cases hy : R last (key y)
    · rw [List.map_cons, List.isChain_cons_cons] at h
      obtain ⟨l₁, z, l₂, rfl, hl₁, hz, he⟩ := ih fun hc => h ⟨hy, hc⟩
      refine ⟨y :: l₁, z, l₂, rfl, List.isChain_cons_cons.mpr ⟨hy, hl₁⟩, ?_, fun acc => ?_⟩
      · rwa [List.map_cons, List.getLastD_cons]
      · have hput : check R key put err (last, acc) y = .ok (key y, put acc y) := if_pos hy
        rw [List.foldlM_cons, hput, List.map_cons, List.getLastD_cons]
        exact he (put acc y)
    · refine ⟨[], y, l, rfl, .singleton last, hy, fun acc => ?_⟩
      have hout : check R key put err (last, acc) y = .error (err last y) := if_neg hy
      rw [List.foldlM_cons, hout]
      rfl

omit [DecidableRel R] in
/-- A start before every key but itself refuses exactly the lists that begin with it. -/
theorem chain_start_iff (hstart : ∀ k, R start k ↔ k ≠ start) :
    (start :: keys).IsChain R ↔ keys.IsChain R ∧ keys.head? ≠ some start := by
  cases keys with
  | nil => simp
  | cons k keys => rw [List.isChain_cons_cons, hstart, and_comm, List.head?_cons, ne_eq, ne_eq, Option.some_inj]

end TradingEcosystem.SortedScan
