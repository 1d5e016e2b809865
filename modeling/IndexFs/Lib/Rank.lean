import Mathlib.Tactic

/-!
# Ranks of stacks

Stacks of at most `K` numbers below `B`, the top first. `rank B K` puts them in the
order in which the bottom counts most; a number that is missing counts as much as the
largest one, so that a stack comes behind all those that extend it.

* `rank_push`, `rank_extend`: pushing a number makes the rank smaller.
* `rank_lt_of_top`: a larger number at one place outweighs what lies above it.
-/

namespace IndexFs

/-- The rank if the missing numbers were zeros. -/
def rankFloor (B K : ℕ) : List ℕ → ℕ
  | [] => 0
  | p :: l => rankFloor B K l + p * B ^ (K - 1 - l.length)

/-- The rank of a stack. -/
def rank (B K : ℕ) (l : List ℕ) : ℕ := rankFloor B K l + B ^ (K - l.length)

section

variable {B K : ℕ} {l above : List ℕ} {p q : ℕ}

theorem rankFloor_push (hl : l.length < K) :
    rankFloor B K (p :: l) + B ^ (K - (p :: l).length) = rankFloor B K l + (p + 1) * B ^ (K - 1 - l.length) := by
  have hlen : K - (p :: l).length = K - 1 - l.length := by rw [List.length_cons]; omega
  rw [rankFloor, hlen]
  ring

theorem pow_room (hl : l.length < K) : B ^ (K - l.length) = B * B ^ (K - 1 - l.length) := by
  rw [← pow_succ', show K - 1 - l.length + 1 = K - l.length by omega]

theorem rank_push_le (hp : p < B) (hl : l.length < K) : rank B K (p :: l) ≤ rank B K l := by
  unfold rank
  rw [rankFloor_push hl, pow_room hl]
  exact Nat.add_le_add_left (Nat.mul_le_mul_right _ hp) _

theorem rank_push (hq : q + 1 < B) (hl : l.length < K) : rank B K (q :: l) < rank B K l := by
  unfold rank
  rw [rankFloor_push hl, pow_room hl]
  exact Nat.add_lt_add_left (Nat.mul_lt_mul_of_pos_right hq (Nat.pow_pos (by omega))) _

/-- What lies above a stack makes its rank smaller. -/
theorem rank_extend (h : ∀ p ∈ above, p < B) (hlen : (above ++ l).length ≤ K) :
    rank B K (above ++ l) ≤ rank B K l := by
  induction above with
  | nil => exact le_rfl
  | cons p above ih =>
    simp only [List.cons_append, List.forall_mem_cons, List.length_cons] at h hlen ⊢
    exact (rank_push_le h.1 (by omega)).trans (ih h.2 (by omega))

theorem rankFloor_le_extend : rankFloor B K l ≤ rankFloor B K (above ++ l) := by
  induction above with
  | nil => exact le_rfl
  | cons p above ih => exact ih.trans (Nat.le_add_right _ _)

/-- Stacks that differ at one place, whatever lies above it in the one with the larger number. -/
theorem rank_lt_of_top (hB : 0 < B) (hp : p < q) (hl : l.length < K) :
    rank B K (p :: l) < rank B K (above ++ q :: l) := by
  have hfloor : rankFloor B K l + (p + 1) * B ^ (K - 1 - l.length) ≤ rankFloor B K (q :: l) :=
    Nat.add_le_add_left (Nat.mul_le_mul_right _ hp) _
  have habove : rankFloor B K (q :: l) ≤ rankFloor B K (above ++ q :: l) := rankFloor_le_extend
  have hpos : 0 < B ^ (K - (above ++ q :: l).length) := Nat.pow_pos hB
  unfold rank
  rw [rankFloor_push hl]
  omega

theorem rank_le_pow (h : ∀ p ∈ l, p < B) (hlen : l.length ≤ K) : rank B K l ≤ B ^ K := by
  have hextend := rank_extend (l := []) h (by simpa using hlen)
  simpa [rank, rankFloor] using hextend

end

end IndexFs
