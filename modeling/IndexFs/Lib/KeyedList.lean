import Mathlib

/-!
# Partial maps as lists

A list whose elements carry keys stands for the partial map that takes a key to the
element with it. If no two elements have the same key, what an insertion or a removal
does to the list at one place it does to the map at one key.

* `keyedMap_eq_some`, `keyedMap_eq_none`: which elements the map knows.
* `keyedMap_insert`, `keyedMap_remove`: an element is put in or taken out.
-/

namespace IndexFs

variable {α κ : Type} [DecidableEq κ] (key : α → κ)

/-- The element of `l` with the key `k`. -/
def keyedMap (l : List α) (k : κ) : Option α := l.find? fun a => decide (key a = k)

variable {key} {l r : List α} {a : α} {k : κ}

theorem keyedMap_eq_none : keyedMap key l k = none ↔ ∀ a ∈ l, key a ≠ k := by
  unfold keyedMap
  simp

/-- The element with a key is the only one. -/
theorem keyedMap_eq_some (h : l.Pairwise fun a b => key a ≠ key b) :
    keyedMap key l k = some a ↔ a ∈ l ∧ key a = k := by
  constructor
  · intro hfind
    exact ⟨List.mem_of_find?_eq_some hfind, by simpa using List.find?_some hfind⟩
  · rintro ⟨hmem, rfl⟩
    induction l with
    | nil => exact absurd hmem List.not_mem_nil
    | cons b l ih =>
      obtain ⟨hb, hl⟩ := List.pairwise_cons.mp h
      unfold keyedMap
      rcases List.mem_cons.mp hmem with rfl | hmem
      · simp
      · rw [List.find?_cons_of_neg (by simpa using hb a hmem)]
        exact ih hl hmem

theorem keyedMap_append : keyedMap key (l ++ r) k = (keyedMap key l k).or (keyedMap key r k) :=
  List.find?_append

theorem keyedMap_insert (h : ∀ x ∈ l, key x ≠ key a) :
    keyedMap key (l ++ a :: r) = Function.update (keyedMap key (l ++ r)) (key a) (some a) := by
  funext k
  rw [keyedMap_append]
  by_cases hk : k = key a
  · subst hk
    rw [Function.update_self, keyedMap_eq_none.mpr h]
    simp [keyedMap]
  · rw [Function.update_of_ne hk, keyedMap_append]
    congr 1
    exact List.find?_cons_of_neg (by simpa using Ne.symm hk)

theorem keyedMap_remove (hl : ∀ x ∈ l, key x ≠ key a) (hr : ∀ x ∈ r, key x ≠ key a) :
    keyedMap key (l ++ r) = Function.update (keyedMap key (l ++ a :: r)) (key a) none := by
  have hnone : keyedMap key (l ++ r) (key a) = none := by
    rw [keyedMap_eq_none]
    intro x hx
    rcases List.mem_append.mp hx with hx | hx
    · exact hl x hx
    · exact hr x hx
  rw [keyedMap_insert hl, Function.update_idem, ← hnone, Function.update_eq_self]

end IndexFs
