import TradingEcosystem.Library.LinkedRing
import TradingEcosystem.Library.Program

/-! Programs that only read their state, described by values of `Except`, and the loops
such programs take around a ring. -/
namespace TradingEcosystem.Program
open LinkedRing
variable {ε σ α β γ ι ν : Type} {x : EStateM ε σ α} {f : α → EStateM ε σ β} {s : σ} {r : Except ε α} {a : α}

/-- The result of a call that leaves the state `s` as it is. -/
def resultAt (s : σ) : Except ε α → EStateM.Result ε σ α
  | .ok a => .ok a s
  | .error e => .error e s

/-- In the state `s` the program comes to `r` and changes nothing. -/
def Reads (x : EStateM ε σ α) (s : σ) (r : Except ε α) : Prop := x s = resultAt s r

namespace Reads

theorem pure (a : α) : Reads (pure a : EStateM ε σ α) s (.ok a) := rfl
theorem throw (e : ε) : Reads (throw e : EStateM ε σ α) s (.error e) := rfl

theorem bind {g : α → Except ε β} (hx : Reads x s r) (hf : ∀ a, r = .ok a → Reads (f a) s (g a)) :
    Reads (x >>= f) s (r >>= g) := by
  cases r with
  | ok a => exact (bind_of_ok hx).trans (hf a rfl)
  | error e => exact bind_of_error hx

/-- A first part that returns does not show in the result. -/
theorem after {r : Except ε β} (hx : Reads x s (.ok a)) (hf : Reads (f a) s r) : Reads (x >>= f) s r :=
  (bind_of_ok hx).trans hf

theorem stops {e : ε} (hx : Reads x s (.error e)) : Reads (x >>= f) s (.error e : Except ε β) := bind_of_error hx

end Reads

section Around
variable {loose : Prop} {next prev : ν → Option ν} {l : List ι} {z : ι} {h : ν} {fuel : Nat} (node : ι → ν)
  (run : Nat → ν → γ → EStateM ε σ γ) (step : γ → ι → Except ε γ)

/-- A loop over the nodes of a ring from its head on is a fold over those before the last one, and then
what it does at that one. Whether the ring is closed does not matter there. -/
theorem Reads.until (last : γ → Except ε γ) (hr : Ring loose next prev ((l ++ [z]).map node)) (hd : ((l ++ [z]).map node).Nodup)
    (hh : ((l ++ [z]).map node).head? = some h) (hfuel : l.length < fuel)
    (hlast : ∀ fuel acc, Reads (run (fuel + 1) (node z) acc) s (last acc))
    (hgo : ∀ y ∈ l, ∀ c, next (node y) = some c → c ≠ h → ∀ fuel acc rest, (∀ acc, Reads (run fuel c acc) s (rest acc)) →
      Reads (run (fuel + 1) (node y) acc) s (step acc y >>= rest)) (acc : γ) :
    Reads (run fuel h acc) s (l.foldlM step acc >>= last) := by
  suffices hsuf : ∀ (l₂ l₁ : List ι) (k : ν) (fuel : Nat) (acc : γ), l = l₁ ++ l₂ → ((l₂ ++ [z]).map node).head? = some k →
      l₂.length < fuel → Reads (run fuel k acc) s (l₂.foldlM step acc >>= last) by
    exact hsuf l [] h fuel acc rfl hh hfuel
  intro l₂
  induction l₂ with
  | nil =>
    rintro l₁ k (_ | fuel) acc - hk hf
    · cases hf
    · obtain rfl := Option.some.inj hk
      exact hlast fuel acc
  | cons y l₂ ih =>
    rintro l₁ k (_ | fuel) acc hl hk hf
    · cases hf
    · obtain rfl := Option.some.inj hk
      obtain ⟨c, m, hc⟩ : ∃ c m, (l₂ ++ [z]).map node = c :: m := List.exists_cons_of_ne_nil (by simp)
      rw [hl, List.append_assoc, List.cons_append, List.map_append, List.map_cons, hc] at hr hd hh
      have hrest : ∀ acc, Reads (run fuel c acc) s (l₂.foldlM step acc >>= last) := fun acc =>
        ih (l₁ ++ [y]) c fuel acc (by rw [hl, List.append_assoc, List.singleton_append]) (by rw [hc]; rfl) (Nat.lt_of_succ_lt_succ hf)
      rw [List.foldlM_cons, bind_assoc]
      exact hgo y (by simp [hl]) c hr.next_eq (ne_head_of_split hd hh) fuel acc _ hrest

/-- A loop over the nodes of a ring from its head on is a fold over them: at the node linked back
to the head it ends, and at every other one it goes on with the next node. -/
theorem Reads.around (hr : Ring False next prev (l.map node)) (hd : (l.map node).Nodup)
    (hh : (l.map node).head? = some h) (hfuel : l.length ≤ fuel)
    (hend : ∀ y ∈ l, next (node y) = some h → ∀ fuel acc, Reads (run (fuel + 1) (node y) acc) s (step acc y))
    (hgo : ∀ y ∈ l, ∀ c, next (node y) = some c → c ≠ h → ∀ fuel acc rest, (∀ acc, Reads (run fuel c acc) s (rest acc)) →
      Reads (run (fuel + 1) (node y) acc) s (step acc y >>= rest)) (acc : γ) :
    Reads (run fuel h acc) s (l.foldlM step acc) := by
  rcases l.eq_nil_or_concat' with rfl | ⟨m, z, rfl⟩
  · cases hh
  · have hnext : next (node z) = some h := by
      rw [List.map_append, List.map_singleton] at hr hh
      rcases hr.next_of_split with e | ⟨hc, -⟩
      · exact e.trans hh
      · exact hc.elim
    have hloop := Reads.until node run step (fun acc => step acc z) hr hd hh (by simpa using hfuel) (hend z (by simp) hnext)
      (fun y hy => hgo y (List.mem_append_left _ hy)) acc
    rwa [List.foldlM_append, show (fun acc => [z].foldlM step acc) = fun acc => step acc z from funext fun acc => by simp]

end Around

end TradingEcosystem.Program
