import IndexFs.Lib.Outcome

/-!
# What a computation reads

A computation on memory lists in its state the cells it has read. `Reads x S r`
says that `x` ends with `r` and reads cells of `S` only; `Touches x c`, that it reads
the cell `c`.

* `Reads.bind`, `Reads.seq`: the rules for sequencing.
* `Touches.left`, `Reads.touches`: a cell read by either part is read by the whole.
-/

namespace IndexFs

variable {ε κ α β : Type}

/-- `x` ends with `r` and reads cells of `S` only. -/
def Reads (x : EStateM ε (List κ) α) (S : Set κ) (r : Except ε α) : Prop :=
  ∀ tr, ∃ new, (∀ c ∈ new, c ∈ S) ∧ x tr =
    match r with
    | .ok a => .ok a (new ++ tr)
    | .error e => .error e (new ++ tr)

/-- What `x` returns, when nothing was read before. -/
def resultOf (x : EStateM ε (List κ) α) : Except ε α :=
  match x [] with
  | .ok a _ => .ok a
  | .error e _ => .error e

/-- The cells that `x` reads. -/
def readsOf (x : EStateM ε (List κ) α) : List κ := finalState x []

/-- `x` reads the cell `c`. -/
def Touches (x : EStateM ε (List κ) α) (c : κ) : Prop := ∀ tr, c ∈ finalState x tr

section Rules

variable {x : EStateM ε (List κ) α} {f : α → EStateM ε (List κ) β} {S T : Set κ} {r : Except ε α} {a : α} {e : ε}
  {c : κ}

theorem Reads.pure (a : α) : Reads (pure a : EStateM ε (List κ) α) S (.ok a) := fun tr =>
  ⟨[], by simp, rfl⟩

theorem Reads.throw (e : ε) : Reads (throw e : EStateM ε (List κ) α) S (.error e) := fun tr =>
  ⟨[], by simp, rfl⟩

theorem Reads.mono (h : Reads x S r) (hST : S ⊆ T) : Reads x T r := by
  intro tr
  obtain ⟨new, hnew, hx⟩ := h tr
  exact ⟨new, fun c hc => hST (hnew c hc), hx⟩

theorem Reads.bind {g : α → Except ε β} (hx : Reads x S r) (hf : ∀ a, r = .ok a → Reads (f a) S (g a)) :
    Reads (x >>= f) S (r >>= g) := by
  intro tr
  obtain ⟨new, hnew, hx⟩ := hx tr
  cases r with
  | error e =>
    refine ⟨new, hnew, ?_⟩
    simp only [Bind.bind, EStateM.bind, hx]
    rfl
  | ok a =>
    obtain ⟨new', hnew', hf⟩ := hf a rfl (new ++ tr)
    refine ⟨new' ++ new, fun c hc => ?_, ?_⟩
    · rcases List.mem_append.mp hc with hc | hc
      · exact hnew' c hc
      · exact hnew c hc
    · have hg : ((.ok a : Except ε α) >>= g) = g a := rfl
      rw [hg]
      simp only [Bind.bind, EStateM.bind, hx, hf]
      cases g a <;> simp

/-- Sequencing behind a part whose result is known. -/
theorem Reads.seq {r : Except ε β} (hx : Reads x S (.ok a)) (hf : Reads (f a) S r) : Reads (x >>= f) S r :=
  Reads.bind (g := fun _ => r) hx fun a' ha' => by
    cases ha'
    exact hf

theorem Reads.throws (hx : Reads x S (.error e)) : Reads (x >>= f) S (.error e) :=
  Reads.bind (g := fun _ => .error e) hx fun _ ha => by cases ha

theorem Reads.resultOf_eq (h : Reads x S r) : resultOf x = r := by
  obtain ⟨new, -, hx⟩ := h []
  unfold resultOf
  rw [hx]
  cases r <;> rfl

theorem Reads.mem (h : Reads x S r) : ∀ c ∈ readsOf x, c ∈ S := by
  obtain ⟨new, hnew, hx⟩ := h []
  unfold readsOf finalState
  rw [hx]
  cases r <;> simpa using hnew

instance instIsPreorderSubset : IsPreorder (List κ) (· ⊆ ·) where
  refl := List.Subset.refl
  trans _ _ _ := List.Subset.trans

/-- What was read stays read. -/
theorem Touches.left (hx : Touches x c) (hf : ∀ a, Relates (· ⊆ ·) (f a)) : Touches (x >>= f) c := by
  intro tr
  have hc := hx tr
  unfold finalState at hc ⊢
  simp only [Bind.bind, EStateM.bind]
  cases hxt : x tr with
  | error e tr' =>
    rw [hxt] at hc
    exact hc
  | ok a tr' =>
    rw [hxt] at hc
    have hsub := hf a tr'
    unfold Ends at hsub
    dsimp only
    cases hft : f a tr' with
    | error e tr'' =>
      rw [hft] at hsub
      exact hsub hc
    | ok b tr'' =>
      rw [hft] at hsub
      exact hsub hc

theorem Reads.touches (hx : Reads x S (.ok a)) (hf : Touches (f a) c) : Touches (x >>= f) c := by
  intro tr
  obtain ⟨new, -, hx⟩ := hx tr
  have hc := hf (new ++ tr)
  unfold finalState at hc ⊢
  simp only [Bind.bind, EStateM.bind, hx]
  exact hc

theorem Touches.mem (h : Touches x c) : c ∈ readsOf x := h []

end Rules

/-! ## Reading a cell -/

/-- Read the cell `c`, whose content is `a`. -/
def readCell (c : κ) (a : α) : EStateM ε (List κ) α := do
  modify (c :: ·)
  return a

theorem readCell_reads (c : κ) (a : α) {S : Set κ} (hc : c ∈ S) :
    Reads (readCell c a : EStateM ε (List κ) α) S (.ok a) := fun tr =>
  ⟨[c], by simpa using hc, rfl⟩

theorem readCell_touches (c : κ) (a : α) : Touches (readCell c a : EStateM ε (List κ) α) c := fun _ =>
  List.mem_cons_self

theorem readCell_relates (c : κ) (a : α) : Relates (· ⊆ ·) (readCell c a : EStateM ε (List κ) α) := fun tr =>
  List.subset_cons_self c tr

end IndexFs
