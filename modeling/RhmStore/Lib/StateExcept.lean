import Mathlib.Tactic.Common

/-! # Programs with a state that survives exceptions -/

namespace RhmStore

variable {ε σ τ α β : Type}

/-- The program ends normally in `Q`, or by an exception in `E`. -/
def wp (x : EStateM ε σ α) (Q : α → σ → Prop) (E : ε → σ → Prop) (s : σ) : Prop :=
  match x s with
  | .ok a s' => Q a s'
  | .error e s' => E e s'

variable {x : EStateM ε σ α} {f : α → EStateM ε σ β} {s s' : σ}
  {Q Q' : α → σ → Prop} {E E' : ε → σ → Prop}

@[simp] theorem wp_pure (a : α) : wp (pure a : EStateM ε σ α) Q E s ↔ Q a s := Iff.rfl

@[simp] theorem wp_get {Q : σ → σ → Prop} : wp (get : EStateM ε σ σ) Q E s ↔ Q s s := Iff.rfl

@[simp] theorem wp_set {Q : PUnit → σ → Prop} (t : σ) :
    wp (set t : EStateM ε σ PUnit) Q E s ↔ Q ⟨⟩ t := Iff.rfl

@[simp] theorem wp_modify {Q : PUnit → σ → Prop} (g : σ → σ) :
    wp (modify g : EStateM ε σ PUnit) Q E s ↔ Q ⟨⟩ (g s) := Iff.rfl

@[simp] theorem wp_throw (e : ε) : wp (throw e : EStateM ε σ α) Q E s ↔ E e s := Iff.rfl

@[simp] theorem wp_bind {Q : β → σ → Prop} :
    wp (x >>= f) Q E s ↔ wp x (fun a t => wp (f a) Q E t) E s := by
  unfold wp
  simp only [bind, EStateM.bind]
  cases x s <;> rfl

theorem wp_ite (c : Prop) [Decidable c] (y : EStateM ε σ α) :
    wp (if c then x else y) Q E s ↔ (c → wp x Q E s) ∧ (¬c → wp y Q E s) := by
  by_cases h : c <;> simp [h]

theorem wp_mono (h : wp x Q E s) (hq : ∀ a t, Q a t → Q' a t) (he : ∀ e t, E e t → E' e t) :
    wp x Q' E' s := by
  unfold wp at h ⊢
  cases hx : x s with
  | ok a t => rw [hx] at h; exact hq a t h
  | error e t => rw [hx] at h; exact he e t h

theorem wp_and (h : wp x Q E s) (h' : wp x Q' E' s) :
    wp x (fun a t => Q a t ∧ Q' a t) (fun e t => E e t ∧ E' e t) s := by
  unfold wp at h h' ⊢
  cases hx : x s with
  | ok a t => rw [hx] at h h'; exact ⟨h, h'⟩
  | error e t => rw [hx] at h h'; exact ⟨h, h'⟩

/-- What a run returns is what it returns. -/
theorem wp_self (x : EStateM ε σ α) (s : σ) :
    wp x (fun a t => x s = .ok a t) (fun e t => x s = .error e t) s := by
  unfold wp
  cases x s <;> rfl

theorem wp_of_ok {a : α} (h : wp x Q E s) (hx : x s = .ok a s') : Q a s' := by
  unfold wp at h
  rwa [hx] at h

theorem wp_of_error {e : ε} (h : wp x Q E s) (hx : x s = .error e s') : E e s' := by
  unfold wp at h
  rwa [hx] at h

/-- A program that does not throw returns. -/
theorem ok_of_wp (h : wp x Q (fun _ _ => False) s) : ∃ a t, x s = .ok a t := by
  cases hx : x s with
  | ok a t => exact ⟨a, t, rfl⟩
  | error e t => exact (wp_of_error h hx).elim

instance decidableExistsOk (r : EStateM.Result ε σ PUnit) : Decidable (∃ t, r = .ok ⟨⟩ t) :=
  match r with
  | .ok _ t => isTrue ⟨t, rfl⟩
  | .error _ _ => isFalse (by rintro ⟨_, ⟨⟩⟩)

theorem ok_bind {b : β} :
    (x >>= f) s = .ok b s' ↔ ∃ a t, x s = .ok a t ∧ f a t = .ok b s' := by
  simp only [bind, EStateM.bind]
  cases hx : x s <;> simp

theorem get_bind_apply (f : σ → EStateM ε σ β) : (get >>= f) s = f s s := rfl

theorem ok_get_bind {f : σ → EStateM ε σ β} {b : β} :
    (get >>= f) s = .ok b s' ↔ f s s = .ok b s' := Iff.rfl

theorem ok_set_bind {f : PUnit → EStateM ε σ β} {t : σ} {b : β} :
    (set t >>= f) s = .ok b s' ↔ f ⟨⟩ t = .ok b s' := Iff.rfl

theorem ok_set {t : σ} {u : PUnit} : (set t : EStateM ε σ PUnit) s = .ok u s' ↔ s' = t := by
  change EStateM.Result.ok PUnit.unit t = .ok u s' ↔ _
  simp [eq_comm]

theorem ok_pure {a b : α} : (pure a : EStateM ε σ α) s = .ok b s' ↔ b = a ∧ s' = s := by
  change EStateM.Result.ok a s = .ok b s' ↔ _
  simp [eq_comm]

theorem ok_throw {a : α} {e : ε} : (throw e : EStateM ε σ α) s = .ok a s' ↔ False := by
  change EStateM.Result.error e s = .ok a s' ↔ _
  simp

theorem wp_forM {γ : Type} {I : σ → Prop} {g : γ → EStateM ε σ PUnit} (l : List γ)
    (h : ∀ c ∈ l, ∀ t, I t → wp (g c) (fun _ => I) E t) (hs : I s) :
    wp (l.forM g) (fun _ => I) E s := by
  induction l generalizing s with
  | nil => exact hs
  | cons c l ih =>
    change wp (g c >>= fun _ => l.forM g) _ E s
    rw [wp_bind]
    refine wp_mono (h c (by simp) s hs) ?_ (fun _ _ he => he)
    intro _ t ht
    exact ih (fun d hd => h d (by simp [hd])) ht

def Keeps (I : σ → Prop) (x : EStateM ε σ α) : Prop := ∀ s, I s → wp x (fun _ => I) (fun _ => I) s

namespace Keeps

variable {I : σ → Prop}

theorem pure (a : α) : Keeps I (Pure.pure a : EStateM ε σ α) := fun _ h => h

theorem throw (e : ε) : Keeps I (MonadExcept.throw e : EStateM ε σ α) := fun _ h => h

theorem modify {g : σ → σ} (h : ∀ s, I s → I (g s)) :
    Keeps I (MonadState.modifyGet (fun s => (PUnit.unit, g s)) : EStateM ε σ PUnit) := h

theorem bind (hx : Keeps I x) (hf : ∀ a, Keeps I (f a)) : Keeps I (x >>= f) := by
  intro s hs
  rw [wp_bind]
  exact wp_mono (hx s hs) (fun a t ht => hf a t ht) (fun _ _ he => he)

theorem get_bind {f : σ → EStateM ε σ β}
    (h : ∀ s, I s → wp (f s) (fun _ => I) (fun _ => I) s) : Keeps I (get >>= f) := h

theorem ite (c : Prop) [Decidable c] {y : EStateM ε σ α} (hx : Keeps I x) (hy : Keeps I y) :
    Keeps I (if c then x else y) := by
  split
  · exact hx
  · exact hy

theorem forM {γ : Type} {g : γ → EStateM ε σ PUnit} (l : List γ) (h : ∀ c, Keeps I (g c)) :
    Keeps I (l.forM g) :=
  fun _ hs => wp_forM l (fun c _ t ht => h c t ht) hs

theorem of_ok (h : Keeps I x) (hs : I s) {a : α} (hx : x s = .ok a s') : I s' :=
  wp_of_ok (h s hs) hx

end Keeps

def onPart (get : τ → σ) (put : τ → σ → τ) (x : EStateM ε σ α) : EStateM ε τ α := fun t =>
  match x (get t) with
  | .ok a s => .ok a (put t s)
  | .error e s => .error e (put t s)

theorem wp_onPart (get : τ → σ) (put : τ → σ → τ) {Q : α → τ → Prop} {E : ε → τ → Prop} {t : τ} :
    wp (onPart get put x) Q E t ↔
      wp x (fun a s => Q a (put t s)) (fun e s => E e (put t s)) (get t) := by
  unfold wp onPart
  cases x (get t) <;> rfl

end RhmStore
