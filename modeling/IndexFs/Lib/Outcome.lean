import Mathlib

/-!
# Reasoning about computations that may fail and keep their state

A C function that returns an error code leaves behind whatever it changed
before it gave up. `EStateM ε σ` models this: an `error` carries a state too.
`Ends x s Q F` says how `x`, run from `s`, ends: with a value and a state
satisfying `Q`, or with an error and a state satisfying `F`.

* `ends_bind`, `Ends.mono`: sequencing and consequence, the two rules every
  proof about a translated function is made of.
* `attempt`: runs a computation and hands its error to the caller as a value,
  for C code that inspects a return code.
* `zoom`: runs a computation on a part of a larger state.
* `Ends.forM`: a loop over a list and its invariant.
* `Relates`: a preorder that the states before and after a computation are in.
* `Keeps`, `KeepsOk`: what a computation leaves alone, always or where it succeeds.
* `Projects`: a computation that, seen through a view of its state, is another one.
-/

namespace IndexFs

variable {ε σ α β : Type}

/-- Run from `s`, `x` ends with a value and state in `Q` or an error and state in `F`. -/
def Ends (x : EStateM ε σ α) (s : σ) (Q : α → σ → Prop) (F : ε → σ → Prop) : Prop :=
  match x s with
  | .ok a s' => Q a s'
  | .error e s' => F e s'

/-- The state in which a computation ends, whether it succeeds or not. -/
def finalState (x : EStateM ε σ α) (s : σ) : σ :=
  match x s with
  | .ok _ s' => s'
  | .error _ s' => s'

/-- The value and the state of a computation that succeeds. -/
def okOf (x : EStateM ε σ α) (s : σ) : Option (α × σ) :=
  match x s with
  | .ok a s' => some (a, s')
  | .error _ _ => none

/-- Run `x` and return its error, if any, as a value. -/
def attempt (x : EStateM ε σ α) : EStateM ε σ (Except ε α) := fun s =>
  match x s with
  | .ok a s' => .ok (.ok a) s'
  | .error e s' => .ok (.error e) s'

/-- A pure result that may be an error. -/
def fromExcept : Except ε α → EStateM ε σ α
  | .ok a => pure a
  | .error e => throw e

/-- Run `x` on the part of the state that `view` reads and `put` replaces. -/
def zoom {τ : Type} (view : σ → τ) (put : τ → σ → σ) (x : EStateM ε τ α) : EStateM ε σ α := fun s =>
  match x (view s) with
  | .ok a t => .ok a (put t s)
  | .error e t => .error e (put t s)

section Rules

variable {x : EStateM ε σ α} {f : α → EStateM ε σ β} {s s' : σ} {a : α} {e : ε}
  {Q Q' : α → σ → Prop} {R : β → σ → Prop} {F F' : ε → σ → Prop}

theorem ends_of_ok (h : x s = .ok a s') : Ends x s Q F ↔ Q a s' := by
  unfold Ends; rw [h]

theorem ends_of_error (h : x s = .error e s') : Ends x s Q F ↔ F e s' := by
  unfold Ends; rw [h]

theorem okOf_eq_some : okOf x s = some (a, s') ↔ x s = .ok a s' := by
  unfold okOf
  cases x s <;> simp

theorem ends_bind : Ends (x >>= f) s R F ↔ Ends x s (fun a s' => Ends (f a) s' R F) F := by
  unfold Ends
  simp only [bind, EStateM.bind]
  cases x s <;> rfl

theorem bind_eq_ok {b : β} : (x >>= f) s = .ok b s' ↔ ∃ a s₁, x s = .ok a s₁ ∧ f a s₁ = .ok b s' := by
  simp only [Bind.bind, EStateM.bind]
  cases hx : x s with
  | ok a s₁ => exact ⟨fun h => ⟨a, s₁, rfl, h⟩, fun ⟨_, _, h, hf⟩ => by cases h; exact hf⟩
  | error e s₁ => simp

/-- The second part is looked at only where the first part ends. -/
theorem bind_congr_at {g : α → EStateM ε σ β} (h : ∀ a s', x s = .ok a s' → f a s' = g a s') :
    (x >>= f) s = (x >>= g) s := by
  simp only [Bind.bind, EStateM.bind]
  cases hx : x s with
  | ok a s' => exact h a s' hx
  | error e s' => rfl

theorem Ends.bind (hx : Ends x s (fun a s' => Ends (f a) s' R F) F) : Ends (x >>= f) s R F :=
  ends_bind.mpr hx

theorem Ends.mono (h : Ends x s Q F) (hQ : ∀ a s', Q a s' → Q' a s')
    (hF : ∀ e s', F e s' → F' e s') : Ends x s Q' F' := by
  unfold Ends at *
  cases hx : x s with
  | ok a s' => rw [hx] at h; exact hQ _ _ h
  | error e s' => rw [hx] at h; exact hF _ _ h

theorem Ends.finalState {P : σ → Prop} (h : Ends x s (fun _ s' => P s') fun _ s' => P s') : P (finalState x s) := by
  unfold Ends at h
  unfold IndexFs.finalState
  cases hx : x s with
  | ok a s' => rw [hx] at h; exact h
  | error e s' => rw [hx] at h; exact h

/-- Sequencing with the first part's own postcondition. -/
theorem Ends.seq (hx : Ends x s Q F) (hf : ∀ a s', Q a s' → Ends (f a) s' R F) :
    Ends (x >>= f) s R F :=
  Ends.bind (hx.mono hf fun _ _ h => h)

/-- Sequencing when the error of the first part is seen differently. -/
theorem Ends.seq' (hx : Ends x s Q F') (hf : ∀ a s', Q a s' → Ends (f a) s' R F)
    (hF : ∀ e s', F' e s' → F e s') : Ends (x >>= f) s R F :=
  Ends.bind (hx.mono hf hF)

theorem Ends.and (h : Ends x s Q F) (h' : Ends x s Q' F') :
    Ends x s (fun a s' => Q a s' ∧ Q' a s') (fun e s' => F e s' ∧ F' e s') := by
  unfold Ends at *
  cases hx : x s with
  | ok a s' => rw [hx] at h h'; exact ⟨h, h'⟩
  | error e s' => rw [hx] at h h'; exact ⟨h, h'⟩

theorem ends_true (x : EStateM ε σ α) (s : σ) : Ends x s (fun _ _ => True) (fun _ _ => True) := by
  unfold Ends
  cases x s <;> trivial

theorem ends_iff : Ends x s Q F ↔
    (∃ a s', x s = .ok a s' ∧ Q a s') ∨ ∃ e s', x s = .error e s' ∧ F e s' := by
  unfold Ends
  cases x s <;> simp

@[simp] theorem ends_pure (a : α) : Ends (pure a : EStateM ε σ α) s Q F ↔ Q a s := Iff.rfl

@[simp] theorem ends_throw (e : ε) : Ends (throw e : EStateM ε σ α) s Q F ↔ F e s := Iff.rfl

@[simp] theorem ends_get {Q : σ → σ → Prop} : Ends (get : EStateM ε σ σ) s Q F ↔ Q s s := Iff.rfl

@[simp] theorem ends_set {Q : PUnit → σ → Prop} (s₁ : σ) :
    Ends (set s₁ : EStateM ε σ PUnit) s Q F ↔ Q ⟨⟩ s₁ := Iff.rfl

@[simp] theorem ends_modify {Q : PUnit → σ → Prop} (g : σ → σ) :
    Ends (modify g : EStateM ε σ PUnit) s Q F ↔ Q ⟨⟩ (g s) := Iff.rfl

theorem ends_attempt {Q : Except ε α → σ → Prop} :
    Ends (attempt x) s Q F ↔ Ends x s (fun a s' => Q (.ok a) s') (fun e s' => Q (.error e) s') := by
  unfold Ends attempt
  cases x s <;> rfl

@[simp] theorem ends_fromExcept_ok (a : α) :
    Ends (fromExcept (.ok a) : EStateM ε σ α) s Q F ↔ Q a s := Iff.rfl

@[simp] theorem ends_fromExcept_error (e : ε) :
    Ends (fromExcept (.error e) : EStateM ε σ α) s Q F ↔ F e s := Iff.rfl

theorem ends_zoom {τ : Type} {view : σ → τ} {put : τ → σ → σ} {y : EStateM ε τ α} :
    Ends (zoom view put y) s Q F ↔
      Ends y (view s) (fun a t => Q a (put t s)) (fun e t => F e (put t s)) := by
  unfold Ends zoom
  cases y (view s) <;> rfl

/-- A loop over a list: `I` holds of what is left of the list and the state. -/
theorem Ends.forM {f : α → EStateM ε σ PUnit} {I : List α → σ → Prop} {l : List α} (h : I l s)
    (hstep : ∀ x l s, I (x :: l) s → Ends (f x) s (fun _ s' => I l s') F) :
    Ends (l.forM f) s (fun _ s' => I [] s') F := by
  induction l generalizing s with
  | nil => exact h
  | cons x l ih => exact (hstep x l s h).seq fun _ s' hs' => ih hs'

theorem ends_ite {c : Prop} [Decidable c] {y : EStateM ε σ α} :
    Ends (if c then x else y) s Q F ↔ (c → Ends x s Q F) ∧ (¬c → Ends y s Q F) := by
  split_ifs with h <;> simp [h]

end Rules

/-! ## Changes -/

/-- The states before and after `x` are related, however it ends. -/
def Relates (R : σ → σ → Prop) (x : EStateM ε σ α) : Prop :=
  ∀ s, Ends x s (fun _ s' => R s s') fun _ s' => R s s'

section Relates

variable {R : σ → σ → Prop} {x : EStateM ε σ α} {f : α → EStateM ε σ β}

theorem Relates.modify {g : σ → σ} (hg : ∀ s, R s (g s)) : Relates R (modify g : EStateM ε σ PUnit) := hg

theorem Relates.mono {R' : σ → σ → Prop} (h : Relates R x) (hR : ∀ s s', R s s' → R' s s') : Relates R' x :=
  fun s => (h s).mono (fun _ s' => hR s s') fun _ s' => hR s s'

theorem Relates.ite {c : Prop} [Decidable c] {y : EStateM ε σ α} (hx : Relates R x) (hy : Relates R y) :
    Relates R (if c then x else y) := by
  split_ifs
  · exact hx
  · exact hy

variable [IsPreorder σ R]

theorem Relates.pure (a : α) : Relates R (pure a : EStateM ε σ α) := fun s => refl_of R s

theorem Relates.throw (e : ε) : Relates R (throw e : EStateM ε σ α) := fun s => refl_of R s

theorem Relates.get : Relates R (get : EStateM ε σ σ) := fun s => refl_of R s

theorem Relates.fromExcept (r : Except ε α) : Relates R (fromExcept r) := by
  cases r with
  | ok a => exact Relates.pure a
  | error e => exact Relates.throw e

theorem Relates.bind (hx : Relates R x) (hf : ∀ a, Relates R (f a)) : Relates R (x >>= f) := by
  intro s
  refine (hx s).seq fun a s₁ h₁ => ?_
  exact (hf a s₁).mono (fun _ s₂ h => trans_of R h₁ h) fun _ s₂ h => trans_of R h₁ h

theorem Relates.forM {f : α → EStateM ε σ PUnit} (hf : ∀ a, Relates R (f a)) (l : List α) :
    Relates R (l.forM f) := by
  induction l with
  | nil => exact Relates.pure _
  | cons a l ih => exact Relates.bind (hf a) fun _ => ih

end Relates

/-! ## Frames -/

/-- `x` leaves what `view` sees alone, however it ends. -/
def Keeps {β : Type} (view : σ → β) (x : EStateM ε σ α) : Prop :=
  Relates (fun s s' => view s' = view s) x

section Keeps

variable {γ : Type} {view : σ → γ} {x : EStateM ε σ α} {f : α → EStateM ε σ β}

instance instIsPreorderView : IsPreorder σ fun s s' => view s' = view s where
  refl _ := rfl
  trans _ _ _ h h' := h'.trans h

theorem Keeps.pure (a : α) : Keeps view (pure a : EStateM ε σ α) := Relates.pure a

theorem Keeps.throw (e : ε) : Keeps view (throw e : EStateM ε σ α) := Relates.throw e

theorem Keeps.get : Keeps view (get : EStateM ε σ σ) := Relates.get

theorem Keeps.modify {g : σ → σ} (hg : ∀ s, view (g s) = view s) :
    Keeps view (modify g : EStateM ε σ PUnit) := hg

theorem Keeps.fromExcept (r : Except ε α) : Keeps view (fromExcept r) := Relates.fromExcept r

theorem Keeps.bind (hx : Keeps view x) (hf : ∀ a, Keeps view (f a)) : Keeps view (x >>= f) :=
  Relates.bind hx hf

theorem Keeps.ite {c : Prop} [Decidable c] {y : EStateM ε σ α} (hx : Keeps view x)
    (hy : Keeps view y) : Keeps view (if c then x else y) := Relates.ite hx hy

theorem Keeps.forM {f : α → EStateM ε σ PUnit} (hf : ∀ a, Keeps view (f a)) (l : List α) :
    Keeps view (l.forM f) := Relates.forM hf l

theorem Keeps.of_ok {s s' : σ} {a : α} (hx : Keeps view x) (h : x s = .ok a s') : view s' = view s :=
  (ends_of_ok h).mp (hx s)

/-- What only looks at the state keeps every view of it. -/
theorem Keeps.through (hx : Keeps (fun s => s) x) : Keeps view x := Relates.mono hx fun _ _ h => congrArg view h

/-- Sequencing behind a part that keeps the view. -/
theorem Keeps.seq {s : σ} {R : β → σ → Prop} {F : ε → σ → Prop} (hx : Keeps view x)
    (hf : ∀ a s', view s' = view s → Ends (f a) s' R F) (hF : ∀ e s', view s' = view s → F e s') :
    Ends (x >>= f) s R F :=
  (hx s).seq' hf hF

/-- Where `x` succeeds, it leaves what `view` sees alone. -/
def KeepsOk {β : Type} (view : σ → β) (x : EStateM ε σ α) : Prop :=
  ∀ s, Ends x s (fun _ s' => view s' = view s) fun _ _ => True

theorem Keeps.ok (hx : Keeps view x) : KeepsOk view x := fun s => (hx s).mono (fun _ _ h => h) fun _ _ _ => trivial

theorem KeepsOk.throw (e : ε) : KeepsOk view (throw e : EStateM ε σ α) := fun _ => trivial

theorem KeepsOk.bind (hx : KeepsOk view x) (hf : ∀ a, KeepsOk view (f a)) : KeepsOk view (x >>= f) := fun s =>
  (hx s).seq fun a s' h => (hf a s').mono (fun _ _ h' => h'.trans h) fun _ _ _ => trivial

theorem KeepsOk.ite {c : Prop} [Decidable c] {y : EStateM ε σ α} (hx : KeepsOk view x)
    (hy : KeepsOk view y) : KeepsOk view (if c then x else y) := by
  split_ifs
  · exact hx
  · exact hy

theorem KeepsOk.of_ok {s s' : σ} {a : α} (hx : KeepsOk view x) (h : x s = .ok a s') : view s' = view s :=
  (ends_of_ok h).mp (hx s)

end Keeps

/-! ## Views -/

/-- Seen through `view`, a run of `x` is a run of `y`. -/
def Projects {τ : Type} (view : σ → τ) (x : EStateM ε σ α) (y : EStateM ε τ α) : Prop :=
  ∀ s, Ends x s (fun a s' => y (view s) = .ok a (view s')) fun e s' => y (view s) = .error e (view s')

section Projects

variable {τ : Type} {view : σ → τ} {x : EStateM ε σ α} {y : EStateM ε τ α} {f : α → EStateM ε σ β}
  {g : α → EStateM ε τ β}

theorem Projects.pure (a : α) : Projects view (pure a : EStateM ε σ α) (pure a) := fun _ => rfl

theorem Projects.throw (e : ε) : Projects view (throw e : EStateM ε σ α) (throw e) := fun _ => rfl

theorem Projects.fromExcept (r : Except ε α) : Projects view (fromExcept r) (fromExcept r) := by
  cases r with
  | ok a => exact Projects.pure a
  | error e => exact Projects.throw e

theorem Projects.zoom {put : τ → σ → σ} (hput : ∀ t s, view (put t s) = t) (y : EStateM ε τ α) :
    Projects view (zoom view put y) y := by
  intro s
  rw [ends_zoom, ends_iff]
  cases hy : y (view s) with
  | ok a t => exact .inl ⟨a, t, rfl, by rw [hput]⟩
  | error e t => exact .inr ⟨e, t, rfl, by rw [hput]⟩

theorem Projects.bind (hx : Projects view x y) (hf : ∀ a, Projects view (f a) (g a)) :
    Projects view (x >>= f) (y >>= g) := by
  intro s
  refine (hx s).seq' (fun a s₁ h₁ => ?_) fun e s₁ h₁ => ?_
  · refine (hf a s₁).mono (fun b s₂ h₂ => ?_) fun e s₂ h₂ => ?_
    · simp only [Bind.bind, EStateM.bind, h₁, h₂]
    · simp only [Bind.bind, EStateM.bind, h₁, h₂]
  · simp only [Bind.bind, EStateM.bind, h₁]

theorem Projects.forM {f : α → EStateM ε σ PUnit} {g : α → EStateM ε τ PUnit} (hf : ∀ a, Projects view (f a) (g a))
    (l : List α) : Projects view (l.forM f) (l.forM g) := by
  induction l with
  | nil => exact Projects.pure _
  | cons a l ih => exact Projects.bind (hf a) fun _ => ih

/-- Both look at the state before they go on. -/
theorem Projects.get {f : σ → EStateM ε σ β} {g : τ → EStateM ε τ β} (hf : ∀ s, Projects view (f s) (g (view s))) :
    Projects view (get >>= f) (get >>= g) := fun s => hf s s

/-- A part that succeeds and that `view` does not see. -/
theorem Projects.skip {y : EStateM ε τ β} (hx : ∀ s, Ends x s (fun _ s' => view s' = view s) fun _ _ => False)
    (hf : ∀ a, Projects view (f a) y) : Projects view (x >>= f) y := by
  intro s
  refine (hx s).seq' (fun a s₁ h₁ => ?_) fun _ _ h => h.elim
  rw [← h₁]
  exact hf a s₁

end Projects

end IndexFs
