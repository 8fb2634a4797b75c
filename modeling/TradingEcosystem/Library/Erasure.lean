import TradingEcosystem.Library.Runs

/-! Programs that report to an observer, which has a state of its own. Such a program erases to the one
that is left without the reports, when no report stops it. -/
namespace TradingEcosystem.Program
variable {ε ω σ τ α β : Type}

structure Observed (ω σ : Type) where
  observer : ω
  state : σ

/-- A program that does not report. -/
def quietly (x : EStateM ε σ α) : EStateM ε (Observed ω σ) α := focus Observed.state (fun p s => { p with state := s }) x

/-- A report. -/
def report (x : EStateM ε ω α) : EStateM ε (Observed ω σ) α := focus Observed.observer (fun p o => { p with observer := o }) x

theorem report_of_ok {r : EStateM ε ω α} {p : Observed ω σ} {a : α} {o : ω} (h : r p.observer = .ok a o) :
    report r p = .ok a { p with observer := o } := focus_of_ok h

theorem report_of_error {r : EStateM ε ω α} {p : Observed ω σ} {e : ε} {o : ω} (h : r p.observer = .error e o) :
    report r p = .error e { p with observer := o } := focus_of_error h

/-- A program on a part of the state that reports. -/
def zoom (get : σ → τ) (put : σ → τ → σ) (y : EStateM ε (Observed ω τ) α) : EStateM ε (Observed ω σ) α :=
  focus (fun p => ⟨p.observer, get p.state⟩) (fun p q => ⟨q.observer, put p.state q.state⟩) y

/-- The end of a program, with the observer as it is then. -/
def beside (o : ω) : EStateM.Result ε σ α → EStateM.Result ε (Observed ω σ) α
  | .ok a s => .ok a ⟨o, s⟩
  | .error e s => .error e ⟨o, s⟩

def Erases (y : EStateM ε (Observed ω σ) α) (x : EStateM ε σ α) : Prop := ∀ p, ∃ o, y p = beside o (x p.state)

namespace Erases
variable {y : EStateM ε (Observed ω σ) α} {x : EStateM ε σ α} {g : α → EStateM ε (Observed ω σ) β} {f : α → EStateM ε σ β}

theorem pure (a : α) : Erases (pure a : EStateM ε (Observed ω σ) α) (pure a) := fun p => ⟨p.observer, rfl⟩

theorem throw (e : ε) : Erases (throw e : EStateM ε (Observed ω σ) α) (throw e) := fun p => ⟨p.observer, rfl⟩

theorem bind (hy : Erases y x) (hg : ∀ a, Erases (g a) (f a)) : Erases (y >>= g) (x >>= f) := by
  intro p
  obtain ⟨o, hp⟩ := hy p
  cases hx : x p.state with
  | ok a s =>
    rw [hx] at hp
    obtain ⟨o', hs⟩ := hg a ⟨o, s⟩
    exact ⟨o', by rw [bind_of_ok hp, bind_of_ok hx, hs]⟩
  | error e s =>
    rw [hx] at hp
    exact ⟨o, by rw [bind_of_error hp, bind_of_error hx]; rfl⟩

theorem quietly (x : EStateM ε σ α) : Erases (quietly x : EStateM ε (Observed ω σ) α) x := by
  intro p
  refine ⟨p.observer, ?_⟩
  unfold Program.quietly focus
  cases x p.state <;> rfl

/-- A report that does not stop is erased. -/
theorem report {r : EStateM ε ω Unit} (hr : ∀ o, ∃ o', r o = .ok () o') :
    Erases (Program.report r : EStateM ε (Observed ω σ) Unit) (Pure.pure ()) := by
  intro p
  obtain ⟨o, ho⟩ := hr p.observer
  exact ⟨o, focus_of_ok ho⟩

theorem skip {z : EStateM ε (Observed ω σ) Unit} (hz : Erases z (Pure.pure ())) (hy : Erases y x) : Erases (do z; y) x :=
  hz.bind fun _ => hy

theorem last {z : EStateM ε (Observed ω σ) PUnit} {y : EStateM ε (Observed ω σ) PUnit} {x : EStateM ε σ PUnit}
    (hy : Erases y x) (hz : Erases z (Pure.pure ⟨⟩)) : Erases (do y; z) x := by
  have hboth : Erases (do y; z) (x >>= fun _ => Pure.pure ⟨⟩) := hy.bind fun _ => hz
  rwa [bind_pure_unit] at hboth

/-- The state is read for a report. -/
theorem read {z : σ → EStateM ε (Observed ω σ) α} (hz : ∀ s, Erases (z s) x) : Erases (do let s ← Program.quietly get; z s) x :=
  fun p => hz p.state p

theorem ite {c : Prop} [Decidable c] {y' : EStateM ε (Observed ω σ) α} {x' : EStateM ε σ α} (h : Erases y x) (h' : Erases y' x') :
    Erases (if c then y else y') (if c then x else x') := by split <;> assumption

theorem forM {γ : Type} {h : γ → EStateM ε (Observed ω σ) PUnit} {k : γ → EStateM ε σ PUnit} (l : List γ)
    (hk : ∀ c, Erases (h c) (k c)) :
    Erases (ForM.forM l h : EStateM ε (Observed ω σ) PUnit) (ForM.forM l k : EStateM ε σ PUnit) := by
  induction l with
  | nil => exact .pure _
  | cons c l ih =>
    rw [List.forM_cons, List.forM_cons]
    exact .bind (hk c) fun _ => ih

theorem zoom {get : τ → σ} {put : τ → σ → τ} (h : Erases y x) : Erases (zoom get put y) (focus get put x) := by
  intro p
  obtain ⟨o, hp⟩ := h ⟨p.observer, get p.state⟩
  refine ⟨o, ?_⟩
  unfold Program.zoom focus
  rw [hp]
  cases x (get p.state) <;> rfl

theorem final_state (h : Erases y x) (p : Observed ω σ) : (final (y p)).state = final (x p.state) := by
  obtain ⟨o, hp⟩ := h p
  rw [hp]
  cases x p.state <;> rfl

/-- What stops a program with reports stops it without them. -/
theorem raises {E : ε → Prop} (h : Erases y x) (hx : Raises E x) : Raises E y := by
  intro p e p' he
  obtain ⟨o, hp⟩ := h p
  rw [hp] at he
  cases hr : x p.state with
  | ok a s =>
    rw [hr] at he
    cases he
  | error e' s =>
    rw [hr] at he
    cases he
    exact hx _ _ _ hr

/-! A run of a system that reports is a run of the system without its reports, and each run of that one is had. -/

open Runs
variable {ι : Type} {reporting : ι → EStateM ε (Observed ω σ) Unit} {silent : ι → EStateM ε σ Unit} {o₀ : ω} {s₀ s : σ} {is : List ι}

theorem reaches (h : ∀ i, Erases (reporting i) (silent i)) (hrun : Reaches silent (fun _ _ => True) s₀ is s) :
    ∃ o, Reaches reporting (fun _ _ => True) ⟨o₀, s₀⟩ is ⟨o, s⟩ := by
  induction hrun with
  | start => exact ⟨o₀, .start⟩
  | @call is s s' i run ok returns ih =>
    obtain ⟨o, hprefix⟩ := ih
    obtain ⟨o', hstep⟩ := h i ⟨o, s⟩
    rw [returns] at hstep
    exact ⟨o', .call hprefix trivial hstep⟩

theorem observes (h : ∀ i, Erases (reporting i) (silent i)) (hrun : Observes silent (fun _ _ => True) s₀ is s) :
    ∃ o, Observes reporting (fun _ _ => True) ⟨o₀, s₀⟩ is ⟨o, s⟩ := by
  cases hrun with
  | done run =>
    obtain ⟨o, hreaches⟩ := reaches h run
    exact ⟨o, .done hreaches⟩
  | @stopped is s s' i e run ok stops =>
    obtain ⟨o, hreaches⟩ := reaches h run
    obtain ⟨o', hstep⟩ := h i ⟨o, s⟩
    rw [stops] at hstep
    exact ⟨o', .stopped hreaches trivial hstep⟩

end Erases
end TradingEcosystem.Program
