import Mathlib.Tactic

/-!
# Comparison functions

A C comparison function returns a negative number, zero or a positive number, and
may fail on operands it cannot read. `OrdersBy p c` says that on the operands in
`p` it decides a total preorder.

* `Decides`: the result of a comparison of two elements of a linear order.
* `OrdersBy.of_rank`: a function that compares ranks in a linear order does so.
* `Tournament`: a relation that holds one way or the other between different
  elements; `Tournament.transOn_iff`: it is transitive exactly if no three elements
  lie in a circle.
-/

namespace IndexFs

variable {ε α β : Type}

/-- On the operands in `p`, `c` decides a total preorder. -/
structure OrdersBy (p : α → Prop) (c : α → α → Except ε ℤ) : Prop where
  defined : ∀ a b, p a → p b → ∃ r, c a b = .ok r
  antisymm : ∀ a b r s, p a → p b → c a b = .ok r → c b a = .ok s → r.sign = -s.sign
  trans : ∀ a b d r s u, p a → p b → p d → c a b = .ok r → c b d = .ok s → c a d = .ok u →
    r ≤ 0 → s ≤ 0 → u ≤ 0
  equal : Equivalence fun a b : {a // p a} => c a b = .ok 0

/-- The result `r` of a comparison says how `x` and `y` compare. -/
structure Decides [LinearOrder β] (r : ℤ) (x y : β) : Prop where
  lt : r < 0 ↔ x < y
  eq : r = 0 ↔ x = y

section Rank

variable [LinearOrder β] {rank : α → β} {x y : β} {r s : ℤ}

theorem Decides.le (h : Decides r x y) : r ≤ 0 ↔ x ≤ y := by
  rw [le_iff_lt_or_eq, h.lt, h.eq, ← le_iff_lt_or_eq]

theorem Decides.gt (h : Decides r x y) : 0 < r ↔ y < x := by
  rw [← not_le, h.le, not_le]

/-- Swapping the operands swaps the sign. -/
theorem Decides.sign_swap (h : Decides r x y) (h' : Decides s y x) : r.sign = -s.sign := by
  rcases lt_trichotomy x y with hlt | heq | hgt
  · rw [Int.sign_eq_neg_one_of_neg (h.lt.mpr hlt), Int.sign_eq_one_of_pos (h'.gt.mpr hlt)]
  · rw [h.eq.mpr heq, h'.eq.mpr heq.symm]
    rfl
  · rw [Int.sign_eq_one_of_pos (h.gt.mpr hgt), Int.sign_eq_neg_one_of_neg (h'.lt.mpr hgt), neg_neg]

/-- Comparing ranks is a total preorder. -/
theorem OrdersBy.of_rank {p : α → Prop} {c : α → α → Except ε ℤ}
    (h : ∀ a b, p a → p b → ∃ r, c a b = .ok r ∧ Decides r (rank a) (rank b)) : OrdersBy p c := by
  have hrank : ∀ a b r, p a → p b → c a b = .ok r → Decides r (rank a) (rank b) := by
    intro a b r ha hb hr
    obtain ⟨r', hr', hd⟩ := h a b ha hb
    rw [hr, Except.ok.injEq] at hr'
    exact hr' ▸ hd
  have hequal : ∀ a b : {a // p a}, c a b = .ok 0 ↔ rank a = rank b := by
    intro a b
    obtain ⟨r, hr, hd⟩ := h a b a.2 b.2
    rw [hr, Except.ok.injEq, hd.eq]
  refine ⟨fun a b ha hb => ?_, fun a b r s ha hb hr hs => ?_,
    fun a b d r s u ha hb hd hr hs hu hr0 hs0 => ?_, fun a => ?_, fun {a b} hab => ?_,
    fun {a b d} hab hbd => ?_⟩
  · obtain ⟨r, hr, -⟩ := h a b ha hb
    exact ⟨r, hr⟩
  · exact (hrank a b r ha hb hr).sign_swap (hrank b a s hb ha hs)
  · have hab := (hrank a b r ha hb hr).le.mp hr0
    have hbd := (hrank b d s hb hd hs).le.mp hs0
    exact (hrank a d u ha hd hu).le.mpr (hab.trans hbd)
  · exact (hequal a a).mpr rfl
  · exact (hequal b a).mpr ((hequal a b).mp hab).symm
  · exact (hequal a d).mpr (((hequal a b).mp hab).trans ((hequal b d).mp hbd))

end Rank

/-! ## Tournaments -/

/-- Between different elements of `s` the relation holds in one direction, and in one only. -/
structure Tournament (s : Set α) (r : α → α → Prop) : Prop where
  total : ∀ a ∈ s, ∀ b ∈ s, a ≠ b → r a b ∨ r b a
  asymm : ∀ a ∈ s, ∀ b ∈ s, r a b → ¬ r b a

theorem Tournament.ne {s : Set α} {r : α → α → Prop} (h : Tournament s r) {a b : α} (ha : a ∈ s) (hb : b ∈ s)
    (hab : r a b) : a ≠ b := by
  rintro rfl
  exact h.asymm a ha a ha hab hab

/-- A tournament is transitive if no three elements lie in a circle. -/
theorem Tournament.transOn_iff {s : Set α} {r : α → α → Prop} (h : Tournament s r) :
    (∀ a ∈ s, ∀ b ∈ s, ∀ c ∈ s, r a b → r b c → r a c) ↔
      ¬ ∃ a ∈ s, ∃ b ∈ s, ∃ c ∈ s, r a b ∧ r b c ∧ r c a := by
  constructor
  · rintro htrans ⟨a, ha, b, hb, c, hc, hab, hbc, hca⟩
    exact h.asymm a ha c hc (htrans a ha b hb c hc hab hbc) hca
  · intro hcircle a ha b hb c hc hab hbc
    have hne : a ≠ c := by
      rintro rfl
      exact h.asymm a ha b hb hab hbc
    rcases h.total a ha c hc hne with hac | hca
    · exact hac
    · exact absurd ⟨a, ha, b, hb, c, hc, hab, hbc, hca⟩ hcircle

end IndexFs
