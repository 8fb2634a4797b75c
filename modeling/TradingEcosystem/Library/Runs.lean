import Mathlib.Data.List.Basic
import TradingEcosystem.Library.Program

/-! Runs of a system that is called again and again. A guard says which call is
considered in which state; a call that stops ends its run. -/
namespace TradingEcosystem.Runs
open Program
variable {ε σ ι : Type} {step : ι → EStateM ε σ Unit} {guard guard' : σ → ι → Prop} {init s s' : σ}
  {is js : List ι} {i : ι}

/-- The state after a run all of whose calls returned. -/
inductive Reaches (step : ι → EStateM ε σ Unit) (guard : σ → ι → Prop) (init : σ) : List ι → σ → Prop where
  | start : Reaches step guard init [] init
  | call {is : List ι} {s s' : σ} {i : ι} (run : Reaches step guard init is s) (ok : guard s i)
      (returns : step i s = .ok () s') : Reaches step guard init (is ++ [i]) s'

/-- A state in which the system can be looked at: every call of the run returned,
or the last one stopped there. -/
inductive Observes (step : ι → EStateM ε σ Unit) (guard : σ → ι → Prop) (init : σ) : List ι → σ → Prop where
  | done {is : List ι} {s : σ} (run : Reaches step guard init is s) : Observes step guard init is s
  | stopped {is : List ι} {s s' : σ} {i : ι} {e : ε} (run : Reaches step guard init is s) (ok : guard s i)
      (stops : step i s = .error e s') : Observes step guard init (is ++ [i]) s'

/-- What holds at first and is kept by every considered call holds after every run.
The invariant may speak about the calls made so far. -/
theorem Reaches.invariant {I : List ι → σ → Prop} (h₀ : I [] init)
    (hs : ∀ is s i s', I is s → guard s i → step i s = .ok () s' → I (is ++ [i]) s')
    (h : Reaches step guard init is s) : I is s := by
  induction h with
  | start => exact h₀
  | call _ ok returns ih => exact hs _ _ _ _ ih ok returns

/-- An observation is an invariant of completed runs, or what a stopped call makes of it. -/
theorem Observes.invariant {I J : List ι → σ → Prop} (h₀ : I [] init)
    (hs : ∀ is s i s', I is s → guard s i → step i s = .ok () s' → I (is ++ [i]) s')
    (hd : ∀ is s, I is s → J is s)
    (he : ∀ is s i e s', I is s → guard s i → step i s = .error e s' → J (is ++ [i]) s')
    (h : Observes step guard init is s) : J is s := by
  cases h with
  | done run => exact hd _ _ (run.invariant h₀ hs)
  | stopped run ok stops => exact he _ _ _ _ _ (run.invariant h₀ hs) ok stops

/-- The rule for an invariant that calls keep whether they return or stop. -/
theorem Observes.always {I : List ι → σ → Prop} (h₀ : I [] init)
    (hs : ∀ is s i, I is s → guard s i → I (is ++ [i]) (final (step i s)))
    (h : Observes step guard init is s) : I is s := by
  refine h.invariant h₀ (fun is s i s' hi hg hr => ?_) (fun _ _ hi => hi) (fun is s i e s' hi hg hr => ?_)
  · have hf := hs is s i hi hg
    rwa [hr] at hf
  · have hf := hs is s i hi hg
    rwa [hr] at hf

theorem Reaches.mono_of_mem (h : Reaches step guard init is s) (hg : ∀ i ∈ is, ∀ s, guard s i → guard' s i) :
    Reaches step guard' init is s := by
  induction h with
  | start => exact .start
  | @call is s s' i run ok returns ih =>
    have hlast := hg i (List.mem_append_right _ List.mem_cons_self) s ok
    exact .call (ih fun j hj => hg j (List.mem_append_left _ hj)) hlast returns

theorem Reaches.mono (h : Reaches step guard init is s) (hg : ∀ s i, guard s i → guard' s i) :
    Reaches step guard' init is s := h.mono_of_mem fun i _ s => hg s i

/-- A run is determined by its calls. -/
theorem Reaches.unique (h : Reaches step guard init is s) (h' : Reaches step guard' init is s') : s = s' := by
  induction h generalizing s' with
  | start =>
    generalize hj : ([] : List ι) = js at h'
    cases h' with
    | start => rfl
    | call => simp at hj
  | @call is t t' i run ok returns ih =>
    generalize hj : is ++ [i] = js at h'
    cases h' with
    | start => simp at hj
    | call run' ok' returns' =>
      obtain ⟨rfl, hi⟩ := List.append_inj' hj rfl
      obtain rfl := List.singleton_injective hi
      obtain rfl := ih run'
      rw [returns] at returns'
      cases returns'
      rfl

/-- A run goes on from where another one ended. -/
theorem Reaches.append (h : Reaches step guard s js s') (hi : Reaches step guard init is s) :
    Reaches step guard init (is ++ js) s' := by
  induction h with
  | start =>
    rw [List.append_nil]
    exact hi
  | call _ ok returns ih =>
    rw [← List.append_assoc]
    exact .call ih ok returns

/-- The last call of a completed run. -/
theorem Reaches.last (h : Reaches step guard init (is ++ [i]) s') :
    ∃ s, Reaches step guard init is s ∧ guard s i ∧ step i s = .ok () s' := by
  generalize hj : is ++ [i] = js at h
  cases h with
  | start => simp at hj
  | @call is' s s' i' run ok returns =>
    obtain ⟨rfl, hi⟩ := List.append_inj' hj rfl
    obtain rfl := List.singleton_injective hi
    exact ⟨s, run, ok, returns⟩

/-- Every beginning of a completed run completed. -/
theorem Reaches.shorter (h : Reaches step guard init is s) (hp : js <+: is) :
    ∃ t, Reaches step guard init js t := by
  induction h with
  | start => rw [List.prefix_nil.mp hp]; exact ⟨_, .start⟩
  | @call is t t' i run ok returns ih =>
    rcases List.prefix_concat_iff.mp hp with rfl | hp
    · exact ⟨_, .call run ok returns⟩
    · exact ih hp

/-- A property holds all along a run if and only if every call of the run is good. Good calls
keep an invariant `Q`, which gives the property; the other calls break the property. -/
theorem Reaches.always_iff {P Q : σ → Prop} {good : σ → ι → Prop} (h₀ : Q init) (hP : ∀ s, Q s → P s)
    (hs : ∀ s i s', Q s → guard s i → step i s = .ok () s' → (P s' → good s i) ∧ (good s i → Q s'))
    (h : Reaches step guard init is s) :
    (∀ js t, js <+: is → Reaches step guard init js t → P t) ↔
      Reaches step (fun s i => guard s i ∧ good s i) init is s := by
  have hQ : ∀ {is s}, Reaches step (fun s i => guard s i ∧ good s i) init is s → Q s := fun run =>
    run.invariant (I := fun _ s => Q s) h₀ fun _ s i s' hq hg hr => (hs s i s' hq hg.1 hr).2 hg.2
  constructor
  · intro hall
    induction h with
    | start => exact .start
    | @call is s s' i run ok returns ih =>
      have hgood := ih fun js t hj => hall js t (hj.trans (List.prefix_append is [i]))
      have hPs' := hall _ s' (List.prefix_refl _) (.call run ok returns)
      exact .call hgood ⟨ok, (hs s i s' (hQ hgood) ok returns).1 hPs'⟩ returns
  · intro hgood js t hj ht
    obtain ⟨t', ht'⟩ := hgood.shorter hj
    obtain rfl := ht'.unique ht
    exact hP t' (hQ ht')

/-- A property that a call can only break, and breaks exactly if it is not `good`, holds
where every call so far was good. -/
theorem Observes.good_iff {I P : σ → Prop} {good : σ → ι → Prop} (hI₀ : I init) (h₀ : P init)
    (hI : ∀ s i, I s → I (final (step i s))) (hback : ∀ s i, I s → P (final (step i s)) → P s)
    (hs : ∀ s i, I s → P s → (P (final (step i s)) ↔ good s i))
    (h : Observes step (fun _ _ => True) init is s) : P s ↔ Observes step good init is s := by
  have hfin : ∀ {i s s'}, step i s = .ok () s' → final (step i s) = s' := fun h => by rw [h, final_ok]
  have hfin' : ∀ {i s e s'}, step i s = .error e s' → final (step i s) = s' := fun h => by rw [h, final_error]
  have hInv : ∀ {is s}, Reaches step (fun _ _ => True) init is s → I s := fun run =>
    run.invariant (I := fun _ s => I s) hI₀ fun _ s i _ hi _ hr => hfin hr ▸ hI s i hi
  have hgood : ∀ {is s}, Reaches step (fun _ _ => True) init is s → P s → Reaches step good init is s := by
    intro is s run hp
    induction run with
    | start => exact .start
    | @call is s s' i run ok returns ih =>
      rw [← hfin returns] at hp
      have hps := hback s i (hInv run) hp
      exact .call (ih hps) ((hs s i (hInv run) hps).mp hp) returns
  constructor
  · intro hp
    cases h with
    | done run => exact .done (hgood run hp)
    | @stopped is s s' i e run ok stops =>
      rw [← hfin' stops] at hp
      have hps := hback s i (hInv run) hp
      exact .stopped (hgood run hps) ((hs s i (hInv run) hps).mp hp) stops
  · intro hg
    have hP := hg.always (I := fun _ s => I s ∧ P s) ⟨hI₀, h₀⟩ fun is s i hi hg =>
      ⟨hI s i hi.1, (hs s i hi.1 hi.2).mpr hg⟩
    exact hP.2

/-! ## What the calls of a run stand for -/

/-- The state after the calls `is`; where one of them stops, the next one goes on. -/
def ending (step : ι → EStateM ε σ Unit) (s : σ) (is : List ι) : σ := is.foldl (fun s i => final (step i s)) s

theorem ending_concat : ending step s (is ++ [i]) = final (step i (ending step s is)) := List.foldl_concat ..

theorem Reaches.ending_eq (h : Reaches step guard init is s) : ending step init is = s := by
  induction h with
  | start => rfl
  | call run ok returns ih => rw [ending_concat, ih, returns, final_ok]

section
variable {κ : Type} {moves : σ → ι → List κ}

/-- What the calls `is` stand for, one after the other, where call `i` in state `s` stands for `moves s i`. -/
def trace (step : ι → EStateM ε σ Unit) (moves : σ → ι → List κ) : σ → List ι → List κ
  | _, [] => []
  | s, i :: is => moves s i ++ trace step moves (final (step i s)) is

theorem trace_concat : trace step moves s (is ++ [i]) = trace step moves s is ++ moves (ending step s is) i := by
  induction is generalizing s with
  | nil => exact List.append_nil _
  | cons j is ih => rw [List.cons_append, trace, trace, ih, List.append_assoc, ending, ending, List.foldl_cons]

theorem Reaches.trace_concat (h : Reaches step guard init is s) :
    trace step moves init (is ++ [i]) = trace step moves init is ++ moves s i := by
  rw [Runs.trace_concat, h.ending_eq]

end

/-- The state after the calls `is`, if every one of them is `allowed` and returns. -/
def execute (step : ι → EStateM ε σ Unit) (allowed : σ → ι → Bool) : List ι → σ → Option σ
  | [], s => some s
  | i :: is, s =>
    if allowed s i then
      match step i s with
      | .ok _ s' => execute step allowed is s'
      | .error _ _ => none
    else none

theorem reaches_of_execute {allowed : σ → ι → Bool} (h : execute step allowed is s = some s') :
    Reaches step (fun s i => allowed s i = true) s is s' := by
  suffices hsuf : ∀ js t, Reaches step (fun s i => allowed s i = true) s js t →
      execute step allowed is t = some s' → Reaches step (fun s i => allowed s i = true) s (js ++ is) s' by
    exact hsuf [] s .start h
  clear h
  induction is with
  | nil =>
    intro js t ht h
    cases h
    rwa [List.append_nil]
  | cons i is ih =>
    intro js t ht h
    rw [execute] at h
    split_ifs at h with ha
    split at h
    · rename_i t' hstep
      rw [← List.singleton_append, ← List.append_assoc]
      exact ih _ _ (.call ht ha hstep) h
    · cases h

/-- A run found by evaluation, with what was computed of its last state. -/
theorem exists_of_execute {allowed : σ → ι → Bool} {P : σ → Prop} [DecidablePred P]
    (h : (execute step allowed is s).any (fun t => decide (P t)) = true) :
    ∃ t, Reaches step (fun s i => allowed s i = true) s is t ∧ P t := by
  obtain ⟨t, ht, hP⟩ := (Option.any_eq_true _ _).mp h
  exact ⟨t, reaches_of_execute ht, of_decide_eq_true hP⟩

theorem exists_of_guarded [∀ s i, Decidable (guard s i)] {P : σ → Prop} [DecidablePred P]
    (h : (execute step (fun s i => decide (guard s i)) is s).any (fun t => decide (P t)) = true) :
    ∃ t, Reaches step guard s is t ∧ P t := by
  obtain ⟨t, ht, hP⟩ := exists_of_execute h
  exact ⟨t, ht.mono fun _ _ => of_decide_eq_true, hP⟩

end TradingEcosystem.Runs
