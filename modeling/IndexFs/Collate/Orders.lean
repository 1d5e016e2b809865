import IndexFs.Collate.Rules
import IndexFs.Lib.Comparison

/-!
# Key orders

What `os_collate_binary`, `os_collate_u64` and `os_collate_ansi_string` of
`object_system/ofs_collate.c` compare: big-endian numbers of any length,
little-endian numbers of one to eight bytes, and strings of upper-cased characters.

Results:

* `collateLoop_bigEndian`: on strings of one length the loop of `os_collate_binary`
  compares numbers.
* `osCollateBinary_bigEndian`: so does the function, on strings of any lengths.
* `key_orders`: the three rules, and that each of them is a total preorder.
-/

namespace IndexFs.Collate

/-- The number with the digits `b`, the first of which is the highest. -/
def bigEndian (b : Bytes) : ℕ := b.foldl (fun x c => 256 * x + c.toNat) 0

/-- The number with the digits `b`, the last of which is the highest. -/
def littleEndian (b : Bytes) : ℕ := Nat.ofDigits 256 (b.map UInt8.toNat)

/-- `os_collate_ansi_string` with the `toupper` of any locale, converted to `char`. -/
def osCollateAnsiUpper (toupper : ℤ → ℤ) (s1 s2 : Bytes) : Except ErrorCode ℤ := do
  assertNonempty s1 s2
  return collateLoop (fun c => toupper (toChar c)) s1 s2

theorem osCollateAnsiString_eq (s1 s2 : Bytes) :
    osCollateAnsiString s1 s2 = osCollateAnsiUpper osToUpper s1 s2 := rfl

theorem decides_collateOrd {α : Type} [LinearOrder α] [DecidableLT α] (a b : α) : Decides (collateOrd a b) a b :=
  ⟨collateOrd_neg, collateOrd_eq_zero⟩

/-! ## Big-endian numbers -/

section BigEndian

variable {c : UInt8} {s s1 s2 : Bytes}

theorem foldl_bigEndian (s : Bytes) (x : ℕ) :
    s.foldl (fun x c => 256 * x + c.toNat) x = x * 256 ^ s.length + bigEndian s := by
  induction s generalizing x with
  | nil => simp [bigEndian]
  | cons c s ih =>
    unfold bigEndian
    rw [List.foldl_cons, List.foldl_cons, ih, ih, List.length_cons, pow_succ]
    ring

theorem bigEndian_cons (c : UInt8) (s : Bytes) :
    bigEndian (c :: s) = c.toNat * 256 ^ s.length + bigEndian s := by
  rw [bigEndian, List.foldl_cons, foldl_bigEndian]
  ring

theorem bigEndian_lt (s : Bytes) : bigEndian s < 256 ^ s.length := by
  induction s with
  | nil => simp [bigEndian]
  | cons c s ih =>
    have hc := c.toNat_lt
    rw [bigEndian_cons, List.length_cons, pow_succ]
    nlinarith

/-- Leading zeros do not count. -/
theorem bigEndian_dropWhile (s : Bytes) : bigEndian (s.dropWhile (· == 0)) = bigEndian s := by
  induction s with
  | nil => rfl
  | cons c s ih =>
    rw [List.dropWhile_cons]
    split_ifs with hc
    · rw [ih, bigEndian_cons, beq_iff_eq.mp hc]
      simp
    · rfl

/-- A number whose first digit is not zero is larger than one with fewer digits. -/
theorem bigEndian_lt_of_length (h : s1.length < s2.length) (h2 : s2.head? ≠ some 0) :
    bigEndian s1 < bigEndian s2 := by
  cases s2 with
  | nil => simp at h
  | cons c s =>
    have hc : 1 ≤ c.toNat := by
      rw [Nat.one_le_iff_ne_zero]
      intro h0
      exact h2 (by simpa using UInt8.toNat_inj.mp h0)
    rw [List.length_cons] at h
    calc bigEndian s1 < 256 ^ s1.length := bigEndian_lt s1
      _ ≤ 256 ^ s.length := Nat.pow_le_pow_right (by norm_num) (by omega)
      _ ≤ c.toNat * 256 ^ s.length := Nat.le_mul_of_pos_left _ hc
      _ ≤ bigEndian (c :: s) := by rw [bigEndian_cons]; exact Nat.le_add_right _ _

/-- Strings of one length compare like the numbers they stand for. -/
theorem collateLoop_bigEndian (h : s1.length = s2.length) :
    collateLoop (fun c => (c.toNat : ℤ)) s1 s2 = collateOrd (bigEndian s1) (bigEndian s2) := by
  induction s1 generalizing s2 with
  | nil =>
    obtain rfl := List.length_eq_zero_iff.mp h.symm
    rfl
  | cons c1 s1 ih =>
    cases s2 with
    | nil => simp at h
    | cons c2 s2 =>
      simp only [List.length_cons, Nat.add_right_cancel_iff] at h
      have hlt1 := bigEndian_lt s1
      have hlt2 := bigEndian_lt s2
      rw [collateLoop, ih h, bigEndian_cons, bigEndian_cons, ← h]
      rw [← h] at hlt2
      -- the first digits decide unless they are equal
      rcases lt_trichotomy c1.toNat c2.toNat with hc | hc | hc
      · have hbelow : c1.toNat * 256 ^ s1.length + bigEndian s1 <
            c2.toNat * 256 ^ s1.length + bigEndian s2 := by nlinarith
        rw [if_neg (by omega), if_pos (by omega), collateOrd, if_neg hbelow.not_gt, if_pos hbelow]
      · rw [if_neg (by omega), if_neg (by omega), hc]
        simp [collateOrd]
      · have habove : c2.toNat * 256 ^ s1.length + bigEndian s2 <
            c1.toNat * 256 ^ s1.length + bigEndian s1 := by nlinarith
        rw [if_pos (by omega), collateOrd, if_pos habove]

theorem head?_dropWhile (s : Bytes) : (s.dropWhile (· == 0)).head? ≠ some 0 := by
  induction s with
  | nil => simp
  | cons c s ih =>
    rw [List.dropWhile_cons]
    split_ifs with hc
    · exact ih
    · simpa using hc

/-- `os_collate_binary` compares big-endian numbers. -/
theorem osCollateBinary_bigEndian {b1 b2 : Bytes} (h1 : b1 ≠ []) (h2 : b2 ≠ []) :
    osCollateBinary b1 b2 = .ok (collateOrd (bigEndian b1) (bigEndian b2)) := by
  have hhead1 := head?_dropWhile b1
  have hhead2 := head?_dropWhile b2
  unfold osCollateBinary
  rw [assertNonempty_ok h1 h2, ← bigEndian_dropWhile b1, ← bigEndian_dropWhile b2]
  simp only [bind, Except.bind]
  set d1 := b1.dropWhile (· == 0)
  set d2 := b2.dropWhile (· == 0)
  rcases lt_trichotomy d1.length d2.length with h | h | h
  · have hlt := bigEndian_lt_of_length h hhead2
    rw [if_neg (by omega), if_pos h, collateOrd, if_neg hlt.not_gt, if_pos hlt]
    rfl
  · rw [if_neg (by omega), if_neg (by omega), collateLoop_bigEndian h]
    rfl
  · have hlt := bigEndian_lt_of_length h hhead1
    rw [if_pos h, collateOrd, if_pos hlt]
    rfl

end BigEndian

/-! ## The three rules -/

theorem osCollateU64_littleEndian {b1 b2 : Bytes} (h1 : 1 ≤ b1.length ∧ b1.length ≤ 8)
    (h2 : 1 ≤ b2.length ∧ b2.length ≤ 8) :
    osCollateU64 b1 b2 = .ok (collateOrd (littleEndian b1) (littleEndian b2)) := by
  unfold osCollateU64
  rw [osBstrToU64_ok h1.1 h1.2, osBstrToU64_ok h2.1 h2.2]
  rfl

theorem osCollateAnsiUpper_upper (toupper : ℤ → ℤ) {s1 s2 : Bytes} (h1 : s1 ≠ []) (h2 : s2 ≠ []) :
    osCollateAnsiUpper toupper s1 s2 = .ok (collateOrd (s1.map fun c => toupper (toChar c))
      (s2.map fun c => toupper (toChar c))) := by
  unfold osCollateAnsiUpper
  rw [assertNonempty_ok h1 h2, collateLoop_eq_ord]
  rfl

/-- Each rule compares by the order it stands for: big-endian numbers, little-endian numbers of one to
eight bytes, and strings of upper-cased characters in lexicographic order. So each is a total preorder. -/
theorem key_orders (toupper : ℤ → ℤ) :
    ((∀ b1 b2, b1 ≠ [] → b2 ≠ [] →
        osCollateBinary b1 b2 = .ok (collateOrd (bigEndian b1) (bigEndian b2))) ∧
      OrdersBy (· ≠ []) osCollateBinary) ∧
    ((∀ b1 b2, (1 ≤ b1.length ∧ b1.length ≤ 8) → (1 ≤ b2.length ∧ b2.length ≤ 8) →
        osCollateU64 b1 b2 = .ok (collateOrd (littleEndian b1) (littleEndian b2))) ∧
      OrdersBy (fun b => 1 ≤ b.length ∧ b.length ≤ 8) osCollateU64) ∧
    ((∀ s1 s2, s1 ≠ [] → s2 ≠ [] → osCollateAnsiUpper toupper s1 s2 =
        .ok (collateOrd (s1.map fun c => toupper (toChar c)) (s2.map fun c => toupper (toChar c)))) ∧
      OrdersBy (· ≠ []) (osCollateAnsiUpper toupper)) := by
  refine ⟨⟨fun b1 b2 => osCollateBinary_bigEndian, .of_rank fun b1 b2 h1 h2 =>
    ⟨_, osCollateBinary_bigEndian h1 h2, decides_collateOrd _ _⟩⟩,
    ⟨fun b1 b2 => osCollateU64_littleEndian, .of_rank fun b1 b2 h1 h2 =>
      ⟨_, osCollateU64_littleEndian h1 h2, decides_collateOrd _ _⟩⟩,
    fun s1 s2 => osCollateAnsiUpper_upper toupper, .of_rank fun s1 s2 h1 h2 =>
      ⟨_, osCollateAnsiUpper_upper toupper h1 h2,
        decides_collateOrd (s1.map fun c => toupper (toChar c)) (s2.map fun c => toupper (toChar c))⟩⟩

/-- `abc` and `ABD` with the `toupper` of the C locale. -/
example : osCollateAnsiString [97, 98, 99] [65, 66, 68] = .ok (-1) := rfl

end IndexFs.Collate
