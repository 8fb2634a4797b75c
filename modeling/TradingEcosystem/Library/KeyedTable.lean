import Mathlib.Logic.Function.Basic
import Mathlib.Tactic

/-! A table rebuilt from a stream of changes, and when it shows exactly a set of keyed
items. A change that does not fit the table ends the replay. -/
namespace TradingEcosystem.KeyedTable
variable {κ ρ ι : Type} [DecidableEq κ]

inductive Change (κ ρ : Type) where
  | insert (k : κ) (r : ρ)
  | adjust (k : κ) (f : ρ → ρ)
  | delete (k : κ)
  | pass

/-- Inserting needs a free key; adjusting and deleting need a key that is held. -/
def Change.apply (t : κ → Option ρ) : Change κ ρ → Option (κ → Option ρ)
  | .insert k r => if (t k).isNone then some (Function.update t k (some r)) else none
  | .adjust k f => (t k).map fun r => Function.update t k (some (f r))
  | .delete k => (t k).map fun _ => Function.update t k none
  | .pass => some t

def replay (cs : List (Change κ ρ)) : Option (κ → Option ρ) := cs.foldlM Change.apply fun _ => none

theorem replay_append {cs : List (Change κ ρ)} {t : κ → Option ρ} (h : replay cs = some t)
    (ds : List (Change κ ρ)) : replay (cs ++ ds) = ds.foldlM Change.apply t := by
  rw [replay, List.foldlM_append, ← replay, h]
  rfl

/-- The rows of the table are those of the live items, which have different keys. -/
structure Shows (t : κ → Option ρ) (live : ι → Prop) (key : ι → κ) (row : ι → ρ) : Prop where
  inj : ∀ i j, live i → live j → key i = key j → i = j
  rows : ∀ k r, t k = some r ↔ ∃ i, live i ∧ key i = k ∧ row i = r

omit [DecidableEq κ] in
theorem shows_nothing {key : ι → κ} {row : ι → ρ} {live : ι → Prop} (h : ∀ i, ¬ live i) :
    Shows (fun _ => none) live key row :=
  ⟨fun i _ hi => absurd hi (h i), fun _ _ => ⟨nofun, fun ⟨i, hi, _⟩ => absurd hi (h i)⟩⟩

section Changes
variable {t : κ → Option ρ} {live live' : ι → Prop} {key key' : ι → κ} {row row' : ι → ρ} {i : ι}
  (h : Shows t live key row)
include h

omit [DecidableEq κ] in
theorem Shows.get (hi : live i) : t (key i) = some (row i) := (h.rows _ _).mpr ⟨i, hi, rfl, rfl⟩

/-- A new item under a key that no item has. -/
theorem Shows.insert (hfree : ∀ j, live j → key j ≠ key' i) (hlive : ∀ j, live' j ↔ j = i ∨ live j)
    (hkey : ∀ j, live j → key' j = key j) (hrow : ∀ j, live j → row' j = row j) :
    ∃ t', (Change.insert (key' i) (row' i)).apply t = some t' ∧ Shows t' live' key' row' := by
  have hnone : t (key' i) = none := by
    rw [Option.eq_none_iff_forall_ne_some]
    intro r hr
    obtain ⟨j, hj, hk, -⟩ := (h.rows _ _).mp hr
    exact hfree j hj hk
  refine ⟨_, by rw [Change.apply, hnone]; rfl, fun j k hj hk e => ?_, fun k r => ?_⟩
  · rcases (hlive j).mp hj with rfl | hj <;> rcases (hlive k).mp hk with rfl | hk
    · rfl
    · exact absurd ((hkey k hk).symm.trans e.symm) (hfree k hk)
    · exact absurd ((hkey j hj).symm.trans e) (hfree j hj)
    · exact h.inj j k hj hk (by rw [← hkey j hj, ← hkey k hk, e])
  · by_cases hk : k = key' i
    · subst hk
      rw [Function.update_self, Option.some.injEq]
      constructor
      · rintro rfl
        exact ⟨i, (hlive i).mpr (.inl rfl), rfl, rfl⟩
      · rintro ⟨j, hj, hk, hr⟩
        rcases (hlive j).mp hj with rfl | hj
        · exact hr
        · exact absurd ((hkey j hj).symm.trans hk) (hfree j hj)
    · rw [Function.update_of_ne hk, h.rows]
      constructor
      · rintro ⟨j, hj, hk', hr⟩
        exact ⟨j, (hlive j).mpr (.inr hj), by rw [hkey j hj, hk'], by rw [hrow j hj, hr]⟩
      · rintro ⟨j, hj, hk', hr⟩
        rcases (hlive j).mp hj with rfl | hj
        · exact absurd hk'.symm hk
        · exact ⟨j, hj, by rw [← hkey j hj, hk'], by rw [← hrow j hj, hr]⟩

/-- An item whose row changes. -/
theorem Shows.adjust {f : ρ → ρ} (hi : live i) (hlive : ∀ j, live' j ↔ live j)
    (hkey : ∀ j, live j → key' j = key j) (hrow : ∀ j, live j → j ≠ i → row' j = row j)
    (hf : row' i = f (row i)) :
    ∃ t', (Change.adjust (key i) f).apply t = some t' ∧ Shows t' live' key' row' := by
  refine ⟨Function.update t (key i) (some (f (row i))), by rw [Change.apply, h.get hi]; rfl,
    fun j k hj hk e => ?_, fun k r => ?_⟩
  · rw [hlive] at hj hk
    exact h.inj j k hj hk (by rw [← hkey j hj, ← hkey k hk, e])
  · by_cases hk : k = key i
    · subst hk
      rw [Function.update_self, Option.some.injEq]
      constructor
      · rintro rfl
        exact ⟨i, (hlive i).mpr hi, hkey i hi, hf⟩
      · rintro ⟨j, hj, hk, hr⟩
        rw [hlive] at hj
        obtain rfl := h.inj j i hj hi (by rw [← hkey j hj, hk])
        rw [← hf, hr]
    · rw [Function.update_of_ne hk, h.rows]
      constructor
      · rintro ⟨j, hj, rfl, hr⟩
        exact ⟨j, (hlive j).mpr hj, hkey j hj, by rw [hrow j hj fun e => hk (e ▸ rfl), hr]⟩
      · rintro ⟨j, hj, hk', hr⟩
        rw [hlive] at hj
        rw [hkey j hj] at hk'
        subst hk'
        exact ⟨j, hj, rfl, by rw [← hrow j hj fun e => hk (e ▸ rfl), hr]⟩

/-- An item that goes. -/
theorem Shows.delete (hi : live i) (hlive : ∀ j, live' j ↔ j ≠ i ∧ live j)
    (hkey : ∀ j, live j → key' j = key j) (hrow : ∀ j, live j → j ≠ i → row' j = row j) :
    ∃ t', (Change.delete (key i)).apply t = some t' ∧ Shows t' live' key' row' := by
  refine ⟨Function.update t (key i) none, by rw [Change.apply, h.get hi]; rfl,
    fun j k hj hk e => ?_, fun k r => ?_⟩
  · have hj := ((hlive j).mp hj).2
    have hk := ((hlive k).mp hk).2
    exact h.inj j k hj hk (by rw [← hkey j hj, ← hkey k hk, e])
  · by_cases hk : k = key i
    · subst hk
      rw [Function.update_self]
      refine ⟨nofun, ?_⟩
      rintro ⟨j, hj, hk, -⟩
      obtain ⟨hne, hj⟩ := (hlive j).mp hj
      exact absurd (h.inj j i hj hi (by rw [← hkey j hj, hk])) hne
    · rw [Function.update_of_ne hk, h.rows]
      constructor
      · rintro ⟨j, hj, rfl, hr⟩
        have hne : j ≠ i := fun e => hk (e ▸ rfl)
        exact ⟨j, (hlive j).mpr ⟨hne, hj⟩, hkey j hj, by rw [hrow j hj hne, hr]⟩
      · rintro ⟨j, hj, hk', hr⟩
        obtain ⟨hne, hj⟩ := (hlive j).mp hj
        exact ⟨j, hj, by rw [← hkey j hj, hk'], by rw [← hrow j hj hne, hr]⟩

end Changes

end TradingEcosystem.KeyedTable
