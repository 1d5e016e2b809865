import IndexFs.Lib.Outcome

/-!
# Invariants of computations that may fail

`Upholds I E Q x` says that `x`, run from a state in `I`, ends in a state of `I`
again, with a value in `Q` or an error in `E`. The state counts after an error too,
since a caller may go on from there.

* `Upholds.bind` with one rule for each way to make a computation.
* `Upholds.fromExcept_bind`: what follows a pure result knows which one it was.
* `Upholds.finalState`: the invariant holds after a run, however it ends.
-/

namespace IndexFs

variable {ε σ α β : Type}

/-- From `I`, `x` ends in `I` with a value in `Q` or an error in `E`. -/
def Upholds (I : σ → Prop) (E : ε → Prop) (Q : α → Prop) (x : EStateM ε σ α) : Prop :=
  ∀ s, I s → Ends x s (fun a s' => I s' ∧ Q a) fun e s' => I s' ∧ E e

section Rules

variable {I : σ → Prop} {E : ε → Prop} {Q Q' : α → Prop} {R : β → Prop} {x y : EStateM ε σ α}
  {f : α → EStateM ε σ β}

theorem Upholds.mono (hx : Upholds I E Q x) (hQ : ∀ a, Q a → Q' a) : Upholds I E Q' x := fun s hs =>
  (hx s hs).mono (fun a _ h => ⟨h.1, hQ a h.2⟩) fun _ _ h => h

theorem Upholds.pure {a : α} (ha : Q a) : Upholds I E Q (pure a) := fun _ hs => ⟨hs, ha⟩

theorem Upholds.throw {e : ε} (he : E e) : Upholds I E Q (throw e) := fun _ hs => ⟨hs, he⟩

theorem Upholds.bind (hx : Upholds I E Q x) (hf : ∀ a, Q a → Upholds I E R (f a)) : Upholds I E R (x >>= f) :=
  fun s hs => (hx s hs).seq fun a s' h => hf a h.2 s' h.1

theorem Upholds.ite {c : Prop} [Decidable c] (hx : c → Upholds I E Q x) (hy : ¬ c → Upholds I E Q y) :
    Upholds I E Q (if c then x else y) := by
  split_ifs with h
  · exact hx h
  · exact hy h

/-- A look at the state. -/
theorem Upholds.get_bind {f : σ → EStateM ε σ β} (hf : ∀ s, I s → Upholds I E R (f s)) :
    Upholds I E R (get >>= f) := fun s hs => hf s hs s hs

theorem Upholds.set {s : σ} (hs : I s) : Upholds I E (fun _ => True) (set s) := fun _ _ => ⟨hs, trivial⟩

theorem Upholds.modify {g : σ → σ} (hg : ∀ s, I s → I (g s)) :
    Upholds I E (fun _ => True) (modify g) := fun s hs => ⟨hg s hs, trivial⟩

theorem Upholds.fromExcept {r : Except ε α} (hQ : ∀ a, r = .ok a → Q a) (hE : ∀ e, r = .error e → E e) :
    Upholds I E Q (fromExcept r) := by
  cases r with
  | ok a => exact Upholds.pure (hQ a rfl)
  | error e => exact Upholds.throw (hE e rfl)

/-- What follows knows which result it was. -/
theorem Upholds.fromExcept_bind {r : Except ε α} (hE : ∀ e, r = .error e → E e)
    (hf : ∀ a, r = .ok a → Upholds I E R (f a)) : Upholds I E R (IndexFs.fromExcept r >>= f) :=
  (Upholds.fromExcept (Q := fun a => r = .ok a) (fun _ h => h) hE).bind hf

/-- A computation on a part of the state that the invariant does not look at. -/
theorem Upholds.zoom {τ : Type} {view : σ → τ} {put : τ → σ → σ} {z : EStateM ε τ α}
    (hz : ∀ t, Ends z t (fun a _ => Q a) fun e _ => E e) (hput : ∀ t s, I s → I (put t s)) :
    Upholds I E Q (zoom view put z) := fun s hs =>
  ends_zoom.mpr ((hz (view s)).mono (fun _ t h => ⟨hput t s hs, h⟩) fun _ t h => ⟨hput t s hs, h⟩)

theorem Upholds.finalState (hx : Upholds I E Q x) {s : σ} (hs : I s) : I (IndexFs.finalState x s) :=
  ((hx s hs).mono (fun _ _ h => h.1) fun _ _ h => h.1).finalState

end Rules

end IndexFs
