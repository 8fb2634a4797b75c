import Mathlib.Order.Defs.Unbundled
import Mathlib.Tactic

/-! Reasoning about programs that change a state and may stop with an error. A
stopped program keeps the state it reached, as a crashed process leaves its
output behind. -/
namespace TradingEcosystem.Program
variable {ε σ α β : Type} {x : EStateM ε σ α} {f : α → EStateM ε σ β} {s s' : σ} {a : α} {b : β}

/-- The state at the end of a call, whether it returned or stopped. -/
def final : EStateM.Result ε σ α → σ
  | .ok _ s => s
  | .error _ s => s

@[simp] theorem final_ok : final (.ok a s : EStateM.Result ε σ α) = s := rfl
@[simp] theorem final_error (e : ε) : final (.error e s : EStateM.Result ε σ α) = s := rfl

/-- Why a call stopped. -/
def stop : EStateM.Result ε σ α → Option ε
  | .ok _ _ => none
  | .error e _ => some e

theorem stop_eq_some {r : EStateM.Result ε σ α} {e : ε} : stop r = some e ↔ ∃ s, r = .error e s := by
  cases r <;> simp [stop]

theorem bind_apply : (x >>= f) s = match x s with
    | .ok a s' => f a s'
    | .error e s' => .error e s' := by
  change EStateM.bind x f s = _
  unfold EStateM.bind
  cases x s <;> rfl

theorem bind_of_ok {t : σ} (h : x s = .ok a t) : (x >>= f) s = f a t := by rw [bind_apply, h]

theorem bind_of_error {e : ε} {t : σ} (h : x s = .error e t) : (x >>= f) s = .error e t := by
  rw [bind_apply, h]

theorem bind_apply_congr {y : EStateM ε σ α} (h : x s = y s) : (x >>= f) s = (y >>= f) s := by
  rw [bind_apply, bind_apply, h]

/-- Programs that go on in the same way from where the first part ends do the same. -/
theorem bind_congr_of_ok {g : α → EStateM ε σ β} (h : ∀ a t, x s = .ok a t → f a t = g a t) : (x >>= f) s = (x >>= g) s := by
  rw [bind_apply, bind_apply]
  cases e : x s with
  | ok a t => exact h a t e
  | error e t => rfl

/-- A sequence returns exactly if its first part does and then its second part does. -/
theorem bind_eq_ok : (x >>= f) s = .ok b s' ↔ ∃ a t, x s = .ok a t ∧ f a t = .ok b s' := by
  rw [bind_apply]
  cases x s <;> simp

/-- Why a sequence stopped: for the reason of its first part, or else for that of its second part. -/
theorem stop_bind {r : Option ε} (h : ∀ a t, x s = .ok a t → stop (f a t) = r) : stop ((x >>= f) s) = (stop (x s)).or r := by
  rw [bind_apply]
  cases e : x s with
  | ok a t => exact h a t e
  | error e t => rfl

@[simp] theorem pure_apply : (pure a : EStateM ε σ α) s = .ok a s := rfl
@[simp] theorem throw_apply (e : ε) : (throw e : EStateM ε σ α) s = .error e s := rfl
@[simp] theorem get_apply : (get : EStateM ε σ σ) s = .ok s s := rfl
@[simp] theorem modify_apply (g : σ → σ) : (modify g : EStateM ε σ PUnit) s = .ok ⟨⟩ (g s) := rfl
@[simp] theorem modifyGet_apply (g : σ → α × σ) :
    (modifyGet g : EStateM ε σ α) s = .ok (g s).1 (g s).2 := rfl

theorem ite_apply {p : Prop} [Decidable p] {y : EStateM ε σ α} :
    (if p then x else y) s = if p then x s else y s := by split <;> rfl

@[simp] theorem forM_nil_apply {γ : Type} (g : γ → EStateM ε σ PUnit) : (forM [] g : EStateM ε σ PUnit) s = .ok ⟨⟩ s := rfl

theorem forM_cons_of_ok {γ : Type} {g : γ → EStateM ε σ PUnit} {c : γ} {l : List γ} {t : σ} (h : g c s = .ok ⟨⟩ t) :
    (forM (c :: l) g : EStateM ε σ PUnit) s = forM l g t := by
  rw [List.forM_cons, bind_of_ok h]

/-- A program on a part of the state: `get` reads the part and `put` writes it back. -/
def focus {τ : Type} (get : σ → τ) (put : σ → τ → σ) (x : EStateM ε τ α) : EStateM ε σ α := fun s =>
  match x (get s) with
  | .ok a t => .ok a (put s t)
  | .error e t => .error e (put s t)

section Focus
variable {τ : Type} {get : σ → τ} {put : σ → τ → σ} {x : EStateM ε τ α} {t : τ}

theorem focus_of_ok (h : x (get s) = .ok a t) : focus get put x s = .ok a (put s t) := by rw [focus, h]

theorem focus_of_error {e : ε} (h : x (get s) = .error e t) : focus get put x s = .error e (put s t) := by rw [focus, h]

theorem focus_eq_ok : focus get put x s = .ok a s' ↔ ∃ t, x (get s) = .ok a t ∧ s' = put s t := by
  unfold focus
  cases x (get s) <;> simp [eq_comm]

theorem focus_eq_error {e : ε} : focus get put x s = .error e s' ↔ ∃ t, x (get s) = .error e t ∧ s' = put s t := by
  unfold focus
  cases x (get s) <;> simp [eq_comm]

theorem final_focus : final (focus get put x s) = put s (final (x (get s))) := by
  unfold focus
  cases x (get s) <;> rfl

end Focus

/-- Every call relates its first state to its last one by `R`, also when it stops. -/
def Frame (R : σ → σ → Prop) (x : EStateM ε σ α) : Prop := ∀ s, R s (final (x s))

namespace Frame
variable {R S : σ → σ → Prop} [IsPreorder σ R]

theorem pure (a : α) : Frame R (pure a : EStateM ε σ α) := fun s => refl_of R s
theorem get : Frame R (get : EStateM ε σ σ) := fun s => refl_of R s
theorem throw (e : ε) : Frame R (throw e : EStateM ε σ α) := fun s => refl_of R s

theorem bind (hx : Frame R x) (hf : ∀ a, Frame R (f a)) : Frame R (x >>= f) := by
  intro s
  rw [bind_apply]
  have h := hx s
  cases e : x s with
  | ok a t => rw [e] at h; exact trans_of R h (hf a t)
  | error e' t => rw [e] at h; exact h

/-- What a program did before it goes on is still related to its last state. -/
theorem after (hf : ∀ a, Frame R (f a)) (s : σ) : R (final (x s)) (final ((x >>= f) s)) := by
  rw [bind_apply]
  cases x s with
  | ok a t => exact hf a t
  | error e t => exact refl_of R t

theorem forM {γ : Type} {g : γ → EStateM ε σ PUnit} (l : List γ) (h : ∀ c, Frame R (g c)) :
    Frame R (ForM.forM l g : EStateM ε σ PUnit) := by
  induction l with
  | nil => exact .pure _
  | cons c l ih =>
    rw [List.forM_cons]
    exact .bind (h c) fun _ => ih

omit [IsPreorder σ R] in
theorem focus {τ : Type} {get : σ → τ} {put : σ → τ → σ} {x : EStateM ε τ α}
    (h : ∀ s, R s (put s (final (x (get s))))) : Frame R (focus get put x) := fun s => by
  rw [final_focus]
  exact h s

omit [IsPreorder σ R] in
theorem ite {p : Prop} [Decidable p] {y : EStateM ε σ α} (hx : Frame R x) (hy : Frame R y) :
    Frame R (if p then x else y) := by split <;> assumption

omit [IsPreorder σ R] in
theorem modify {g : σ → σ} (h : ∀ s, R s (g s)) : Frame R (modify g : EStateM ε σ PUnit) := h

omit [IsPreorder σ R] in
theorem mono (h : Frame R x) (hi : ∀ s s', R s s' → S s s') : Frame S x := fun s => hi _ _ (h s)

omit [IsPreorder σ R] in
theorem of_ok (h : Frame R x) (he : x s = .ok a s') : R s s' := by
  have := h s
  rwa [he] at this

omit [IsPreorder σ R] in
theorem of_error {e : ε} (h : Frame R x) (he : x s = .error e s') : R s s' := by
  have := h s
  rwa [he] at this

omit [IsPreorder σ R] in
theorem returns (h : Frame R x) : ∀ s a s', x s = .ok a s' → R s s' := fun _ _ _ => h.of_ok

end Frame

/-- Every call that returns relates its first state to its last one by `R`. -/
def Returns (R : σ → σ → Prop) (x : EStateM ε σ α) : Prop := ∀ s a s', x s = .ok a s' → R s s'

namespace Returns
variable {R : σ → σ → Prop} [IsPreorder σ R]

theorem get : Returns R (get : EStateM ε σ σ) := Frame.get.returns

theorem pure (a : α) : Returns R (pure a : EStateM ε σ α) := by
  intro s b s' h
  cases h
  exact refl_of R s

theorem bind (hx : Returns R x) (hf : ∀ a, Returns R (f a)) : Returns R (x >>= f) := by
  intro s b s' h
  obtain ⟨a, t, hat, hbt⟩ := bind_eq_ok.mp h
  exact trans_of R (hx s a t hat) (hf a t b s' hbt)

omit [IsPreorder σ R] in
theorem throw (e : ε) : Returns R (throw e : EStateM ε σ α) := fun _ _ _ h => (nomatch h)

omit [IsPreorder σ R] in
theorem ite {p : Prop} [Decidable p] {y : EStateM ε σ α} (hx : Returns R x) (hy : Returns R y) :
    Returns R (if p then x else y) := by split <;> assumption

end Returns

/-- A call stops for a reason in `E` only. -/
def Raises (E : ε → Prop) (x : EStateM ε σ α) : Prop := ∀ s e s', x s = .error e s' → E e

namespace Raises
variable {E : ε → Prop}

/-- A call that always returns. -/
theorem of_returns (h : ∀ s, ∃ a s', x s = .ok a s') : Raises E x := by
  intro s e s' he
  obtain ⟨a, t, hr⟩ := h s
  rw [hr] at he
  cases he

theorem mono {E' : ε → Prop} (h : Raises E x) (hE : ∀ e, E e → E' e) : Raises E' x := fun s e s' he => hE e (h s e s' he)

theorem pure (a : α) : Raises E (pure a : EStateM ε σ α) := fun _ _ _ he => by cases he

theorem get : Raises E (get : EStateM ε σ σ) := .of_returns fun s => ⟨s, s, rfl⟩

theorem modify (g : σ → σ) : Raises E (modify g : EStateM ε σ PUnit) := .of_returns fun s => ⟨⟨⟩, g s, rfl⟩

theorem throw {e : ε} (h : E e) : Raises E (throw e : EStateM ε σ α) := fun _ _ _ he => by
  cases he
  exact h

theorem bind (hx : Raises E x) (hf : ∀ a, Raises E (f a)) : Raises E (x >>= f) := by
  intro s e s' he
  rw [bind_apply] at he
  cases hr : x s with
  | ok a t =>
    rw [hr] at he
    exact hf a t e s' he
  | error _ t =>
    rw [hr] at he
    cases he
    exact hx s _ _ hr

/-- What the second part does matters only for the results that the first part has here. -/
theorem bind_at {e : ε} (hx : Raises E x) (hf : ∀ a t, x s = .ok a t → f a t = .error e s' → E e)
    (he : (x >>= f) s = .error e s') : E e := by
  rw [bind_apply] at he
  cases hr : x s with
  | ok a t =>
    rw [hr] at he
    exact hf a t hr he
  | error _ t =>
    rw [hr] at he
    cases he
    exact hx s _ _ hr

theorem ite {p : Prop} [Decidable p] {y : EStateM ε σ α} (hx : Raises E x) (hy : Raises E y) :
    Raises E (if p then x else y) := by split <;> assumption

theorem forM {γ : Type} {g : γ → EStateM ε σ PUnit} (l : List γ) (h : ∀ c, Raises E (g c)) :
    Raises E (ForM.forM l g : EStateM ε σ PUnit) := by
  induction l with
  | nil => exact .pure _
  | cons c l ih =>
    rw [List.forM_cons]
    exact .bind (h c) fun _ => ih

theorem focus {τ : Type} {get : σ → τ} {put : σ → τ → σ} {x : EStateM ε τ α} (h : Raises E x) :
    Raises E (focus get put x) := fun s e s' he => by
  obtain ⟨t, ht, -⟩ := focus_eq_error.mp he
  exact h (get s) e t ht

/-- A fault that the second part never has is one of the first part. -/
theorem stops_bind_iff {e : ε} (hf : ∀ a, Raises (· ≠ e) (f a)) :
    (∃ s', (x >>= f) s = .error e s') ↔ ∃ s', x s = .error e s' := by
  rw [bind_apply]
  cases x s with
  | ok a t => exact ⟨fun ⟨s', he⟩ => absurd rfl (hf a t e s' he), fun ⟨_, he⟩ => nomatch he⟩
  | error e' t =>
    refine exists_congr fun s' => ⟨fun he => ?_, fun he => ?_⟩
    · cases he
      rfl
    · cases he
      rfl

end Raises

/-- Keeping a value computed from the state fixed. -/
def Fixes {γ : Type} (v : σ → γ) (s s' : σ) : Prop := v s' = v s

instance {γ : Type} (v : σ → γ) : IsPreorder σ (Fixes v) where
  refl _ := rfl
  trans _ _ _ h h' := Eq.trans h' h

/-- Keeping a property of the state. -/
def Preserves (P : σ → Prop) (s s' : σ) : Prop := P s → P s'

instance (P : σ → Prop) : IsPreorder σ (Preserves P) where
  refl _ := id
  trans _ _ _ h h' := h' ∘ h

end TradingEcosystem.Program
