import Mathlib

/-!
# Lists of disjoint intervals

An extent `(a, n)` stands for the interval `[a, a + n)` of natural numbers. A
list of extents is `Separated` when each ends before every later one starts,
and `covered` is the set of numbers in its extents. What an allocator does to a
free list is described at one position of a list `A ++ e :: C`.

* `exists_split`: a comparison that is monotone along a list cuts it in three.
* `covered_insert`, `separated_insert`: placing an extent into a gap.
* `covered_carve`: removing a part of one extent.
* `ncard_covered`: the covered set has as many elements as the lengths sum to.
-/

namespace IndexFs

/-- The numbers in the extents of `l`. -/
def covered (l : List (ℕ × ℕ)) : Set ℕ := {b | ∃ e ∈ l, b ∈ Set.Ico e.1 (e.1 + e.2)}

/-- Each extent ends before every later one starts. -/
def Separated (l : List (ℕ × ℕ)) : Prop := l.Pairwise fun e f => e.1 + e.2 ≤ f.1

/-! ## Cutting a list at a comparison -/

/-- If `c` is positive after a positive value and negative before a negative
one, the list is a part below, a part equal and a part above. -/
theorem exists_split {α : Type*} (c : α → ℤ) {l : List α}
    (h : l.Pairwise fun e f => (0 < c e → 0 < c f) ∧ (c f < 0 → c e < 0)) :
    ∃ A B C, l = A ++ B ++ C ∧ (∀ e ∈ A, c e < 0) ∧ (∀ e ∈ B, c e = 0) ∧ ∀ e ∈ C, 0 < c e := by
  induction l with
  | nil => exact ⟨[], [], [], by simp⟩
  | cons x l ih =>
    obtain ⟨hx, hl⟩ := List.pairwise_cons.mp h
    obtain ⟨A, B, C, rfl, hA, hB, hC⟩ := ih hl
    rcases lt_trichotomy (c x) 0 with hneg | hzero | hpos
    · exact ⟨x :: A, B, C, rfl, by simpa [hneg] using hA, hB, hC⟩
    · -- nothing after `x` can be below it, so `A` is empty
      have hAnil : A = [] := List.eq_nil_iff_forall_not_mem.mpr fun e he => by
        have := (hx e (by simp [he])).2 (hA e he)
        omega
      subst hAnil
      exact ⟨[], x :: B, C, rfl, by simp, by simpa [hzero] using hB, hC⟩
    · have hAnil : A = [] := List.eq_nil_iff_forall_not_mem.mpr fun e he => by
        have h1 := (hx e (by simp [he])).1 hpos
        have h2 := hA e he
        omega
      have hBnil : B = [] := List.eq_nil_iff_forall_not_mem.mpr fun e he => by
        have h1 := (hx e (by simp [he])).1 hpos
        have h2 := hB e he
        omega
      subst hAnil hBnil
      exact ⟨[], [], x :: C, rfl, by simp, by simp, by simpa [hpos] using hC⟩

/-! ## The covered set -/

@[simp] theorem covered_nil : covered [] = ∅ := by simp [covered]

@[simp] theorem covered_cons (e : ℕ × ℕ) (l : List (ℕ × ℕ)) :
    covered (e :: l) = Set.Ico e.1 (e.1 + e.2) ∪ covered l := by
  ext b; simp [covered]

@[simp] theorem covered_append (l m : List (ℕ × ℕ)) : covered (l ++ m) = covered l ∪ covered m := by
  ext b
  simp only [covered, List.mem_append, Set.mem_ofPred_eq, Set.mem_union]
  constructor
  · rintro ⟨e, he | he, hb⟩
    · exact .inl ⟨e, he, hb⟩
    · exact .inr ⟨e, he, hb⟩
  · rintro (⟨e, he, hb⟩ | ⟨e, he, hb⟩)
    · exact ⟨e, .inl he, hb⟩
    · exact ⟨e, .inr he, hb⟩

theorem covered_finite (l : List (ℕ × ℕ)) : (covered l).Finite := by
  induction l with
  | nil => simp
  | cons e l ih =>
    rw [covered_cons]
    exact (Set.finite_Ico _ _).union ih

theorem mem_covered_of_mem {l : List (ℕ × ℕ)} {e : ℕ × ℕ} (he : e ∈ l) (hpos : 1 ≤ e.2) :
    e.1 ∈ covered l := ⟨e, he, by simp; omega⟩

/-- Placing an extent at a position adds its interval. -/
theorem covered_insert (A C : List (ℕ × ℕ)) (a n : ℕ) :
    covered (A ++ (a, n) :: C) = covered (A ++ C) ∪ Set.Ico a (a + n) := by
  simp only [covered_append, covered_cons]
  rw [Set.union_comm (Set.Ico a (a + n)), Set.union_assoc]

/-! ## Separated lists -/

theorem separated_append_cons {A C : List (ℕ × ℕ)} {e : ℕ × ℕ} :
    Separated (A ++ e :: C) ↔
      Separated (A ++ C) ∧ (∀ x ∈ A, x.1 + x.2 ≤ e.1) ∧ ∀ x ∈ C, e.1 + e.2 ≤ x.1 := by
  unfold Separated
  simp only [List.pairwise_append, List.pairwise_cons, List.mem_cons, forall_eq_or_imp]
  constructor
  · rintro ⟨hA, ⟨heC, hC⟩, hAC⟩
    exact ⟨⟨hA, hC, fun x hx => (hAC x hx).2⟩, fun x hx => (hAC x hx).1, heC⟩
  · rintro ⟨⟨hA, hC, hAC⟩, hAe, heC⟩
    exact ⟨hA, ⟨heC, hC⟩, fun x hx => ⟨hAe x hx, hAC x hx⟩⟩

/-- An extent that fits into the gap between `A` and `C` keeps the list separated. -/
theorem separated_insert {A C : List (ℕ × ℕ)} {a n : ℕ} (h : Separated (A ++ C))
    (hA : ∀ x ∈ A, x.1 + x.2 ≤ a) (hC : ∀ x ∈ C, a + n ≤ x.1) : Separated (A ++ (a, n) :: C) :=
  separated_append_cons.mpr ⟨h, hA, hC⟩

/-- The other extents of a separated list do not meet the one at a position. -/
theorem disjoint_covered_extent {A C : List (ℕ × ℕ)} {e : ℕ × ℕ} (h : Separated (A ++ e :: C)) :
    Disjoint (covered (A ++ C)) (Set.Ico e.1 (e.1 + e.2)) := by
  obtain ⟨-, hA, hC⟩ := separated_append_cons.mp h
  rw [Set.disjoint_left]
  rintro b ⟨x, hx, hb⟩ hbe
  simp only [Set.mem_Ico] at hb hbe
  rcases List.mem_append.mp hx with hx | hx
  · have := hA x hx
    omega
  · have := hC x hx
    omega

/-- Carving `[s, s + n)` out of an extent `e` and keeping the rest `K` of it
removes exactly that interval from the covered set. -/
theorem covered_carve {A K C : List (ℕ × ℕ)} {e : ℕ × ℕ} {s n : ℕ} (h : Separated (A ++ e :: C))
    (hK : covered K = Set.Ico e.1 (e.1 + e.2) \ Set.Ico s (s + n))
    (hin : Set.Ico s (s + n) ⊆ Set.Ico e.1 (e.1 + e.2)) :
    covered (A ++ K ++ C) = covered (A ++ e :: C) \ Set.Ico s (s + n) := by
  have hdisj := (disjoint_covered_extent h).mono_right hin
  have hrest : covered (A ++ C) \ Set.Ico s (s + n) = covered (A ++ C) := hdisj.sdiff_eq_left
  have heq : covered (A ++ e :: C) = covered (A ++ C) ∪ Set.Ico e.1 (e.1 + e.2) :=
    covered_insert A C e.1 e.2
  rw [heq, Set.union_sdiff_distrib, hrest, ← hK]
  simp only [covered_append]
  rw [Set.union_right_comm]

/-! ## Counting -/

theorem ncard_Ico (s n : ℕ) : (Set.Ico s (s + n)).ncard = n := by
  rw [← Finset.coe_Ico, Set.ncard_coe_finset, Nat.card_Ico, Nat.add_sub_cancel_left]

/-- The covered set of a separated list has as many elements as its lengths sum to. -/
theorem ncard_covered {l : List (ℕ × ℕ)} (h : Separated l) :
    (covered l).ncard = (l.map Prod.snd).sum := by
  induction l with
  | nil => simp
  | cons e l ih =>
    have hdisj : Disjoint (Set.Ico e.1 (e.1 + e.2)) (covered l) :=
      (disjoint_covered_extent (A := []) h).symm
    rw [covered_cons, Set.ncard_union_eq hdisj (Set.finite_Ico _ _) (covered_finite l), ncard_Ico,
      ih (List.pairwise_cons.mp h).2, List.map_cons, List.sum_cons]

/-- A separated list of nonempty extents below `N` has at most `N` of them. -/
theorem length_le_of_bounded {l : List (ℕ × ℕ)} {N : ℕ} (h : Separated l)
    (hpos : ∀ e ∈ l, 1 ≤ e.2) (hN : ∀ e ∈ l, e.1 + e.2 ≤ N) : l.length ≤ N := by
  have hsub : covered l ⊆ Set.Ico 0 (0 + N) := by
    rintro b ⟨e, he, hb⟩
    have := hN e he
    simp only [Set.mem_Ico] at hb ⊢
    omega
  have hsum : l.length ≤ (l.map Prod.snd).sum := by
    rw [← List.length_map (f := Prod.snd)]
    exact List.length_le_sum_of_one_le _ fun n hn => by
      obtain ⟨e, he, rfl⟩ := List.mem_map.mp hn
      exact hpos e he
  calc l.length ≤ (l.map Prod.snd).sum := hsum
    _ = (covered l).ncard := (ncard_covered h).symm
    _ ≤ (Set.Ico 0 (0 + N)).ncard := Set.ncard_le_ncard hsub (Set.finite_Ico _ _)
    _ = N := ncard_Ico 0 N

end IndexFs
