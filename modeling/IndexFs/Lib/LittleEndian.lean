import Mathlib.Tactic

/-!
# Little-endian numbers in memory

`readLe m off n` is the number in the `n` bytes from `off` on, and
`writeLe m off n v` puts one there.

* `readLe_writeLe`: what is read back is the number, cut to `n` bytes.
* `writeLe_outside`, `readLe_writeLe_disjoint`: other bytes stay.
* `writeLe_readLe`: a number put back where it was.
-/

namespace IndexFs

/-- The number in the `n` bytes from `off` on. -/
def readLe (m : ℤ → UInt8) (off : ℤ) : (n : ℕ) → ℕ
  | 0 => 0
  | n + 1 => (m off).toNat + 256 * readLe m (off + 1) n

/-- The bytes after the low `n` bytes of `v` are put at `off`. -/
def writeLe (m : ℤ → UInt8) (off : ℤ) : (n v : ℕ) → ℤ → UInt8
  | 0, _ => m
  | n + 1, v => Function.update (writeLe m (off + 1) n (v / 256)) off (UInt8.ofNat v)

section

variable {m m' : ℤ → UInt8} {off off' : ℤ} {n n' v : ℕ}

theorem readLe_lt (m : ℤ → UInt8) (off : ℤ) (n : ℕ) : readLe m off n < 256 ^ n := by
  induction n generalizing off with
  | zero => exact Nat.one_pos
  | succ n ih =>
    have hrest := ih (off + 1)
    have hbyte := (m off).toNat_lt
    unfold readLe
    rw [pow_succ]
    omega

/-- A number depends on its own bytes only. -/
theorem readLe_congr (h : ∀ i, off ≤ i → i < off + n → m i = m' i) : readLe m off n = readLe m' off n := by
  induction n generalizing off with
  | zero => rfl
  | succ n ih =>
    unfold readLe
    rw [h off le_rfl (by omega), ih fun i hlo hhi => h i (by omega) (by omega)]

/-- The bytes outside the number stay. -/
theorem writeLe_outside {i : ℤ} (h : i < off ∨ off + n ≤ i) : writeLe m off n v i = m i := by
  induction n generalizing off v with
  | zero => rfl
  | succ n ih =>
    unfold writeLe
    rw [Function.update_of_ne (by omega), ih (by omega)]

/-- A byte depends on the number written and on what was at its own place. -/
theorem writeLe_congr {i : ℤ} (h : m i = m' i) : writeLe m off n v i = writeLe m' off n v i := by
  induction n generalizing off v with
  | zero => exact h
  | succ n ih =>
    unfold writeLe
    by_cases hi : i = off
    · rw [hi, Function.update_self, Function.update_self]
    · rw [Function.update_of_ne hi, Function.update_of_ne hi, ih]

theorem readLe_writeLe : readLe (writeLe m off n v) off n = v % 256 ^ n := by
  induction n generalizing off v with
  | zero => simp [readLe, Nat.mod_one]
  | succ n ih =>
    have hrest : readLe (writeLe m off (n + 1) v) (off + 1) n = readLe (writeLe m (off + 1) n (v / 256)) (off + 1) n := by
      refine readLe_congr fun i hlo hhi => ?_
      conv_lhs => unfold writeLe
      rw [Function.update_of_ne (by omega)]
    have hbyte : (writeLe m off (n + 1) v off).toNat = v % 256 := by
      unfold writeLe
      rw [Function.update_self, UInt8.toNat_ofNat']
    unfold readLe
    rw [hrest, ih, hbyte, pow_succ', Nat.mod_mul]

/-- Another number stays. -/
theorem readLe_writeLe_disjoint (h : off' + n' ≤ off ∨ off + n ≤ off') :
    readLe (writeLe m off n v) off' n' = readLe m off' n' :=
  readLe_congr fun i hlo hhi => writeLe_outside (by omega)

/-- Putting a number where it was read in another memory makes its bytes those of that memory. -/
theorem writeLe_readLe_inside {i : ℤ} (hlo : off ≤ i) (hhi : i < off + n) :
    writeLe m off n (readLe m' off n) i = m' i := by
  induction n generalizing off with
  | zero => omega
  | succ n ih =>
    unfold writeLe
    by_cases hi : i = off
    · rw [hi, Function.update_self]
      unfold readLe
      rw [UInt8.ofNat_add, UInt8.ofNat_mul, UInt8.ofNat_toNat]
      simp
    · have hrest : readLe m' off (n + 1) / 256 = readLe m' (off + 1) n := by
        have hlt := (m' off).toNat_lt
        conv_lhs => unfold readLe
        omega
      rw [Function.update_of_ne hi, hrest]
      exact ih (by omega) (by omega)

/-- Putting back a number, with all other bytes as they were, restores the memory. -/
theorem writeLe_readLe (h : ∀ i, i < off ∨ off + n ≤ i → m i = m' i) : writeLe m off n (readLe m' off n) = m' := by
  funext i
  by_cases hi : off ≤ i ∧ i < off + n
  · exact writeLe_readLe_inside hi.1 hi.2
  · rw [writeLe_outside (by omega), h i (by omega)]

end

end IndexFs
