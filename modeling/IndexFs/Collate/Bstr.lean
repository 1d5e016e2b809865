import IndexFs.Basic
import Mathlib.Data.Nat.Digits.Defs

/-!
# Little-endian byte strings of 64-bit numbers

`os_bstr_to_u64`, `os_u64_size` and `os_u64_to_bstr` of
`object_system/ofs_collate.c` (lines 207–275). A `uint64_t` is a natural number
below `2^64`; the two `ASSERT`s on the size of a byte string are errors.

Results:

* `osBstrToU64_osU64ToBstr`: decoding the encoding of a number gives it back.
* `osU64ToBstr_length`: an encoding has one to eight bytes.
-/

namespace IndexFs.Collate

/-- The byte of weight `256^i` of a `uint64_t`. -/
def u64Byte (u64 i : ℕ) : ℕ := u64 / 256 ^ i % 256

/-- `os_bstr_to_u64` (lines 208–224). -/
def osBstrToU64 (b : Bytes) : Except ErrorCode ℕ :=
  if b.length = 0 ∨ 8 < b.length then .error .assertion
  else .ok (Nat.ofDigits 256 (b.map UInt8.toNat))

/-- The `while` loop of `os_u64_size` (lines 233–242). -/
def osU64SizeLoop (u64 : ℕ) : (pos bSize : ℕ) → ℕ
  | 0, bSize => bSize
  | pos + 1, bSize =>
    if u64Byte u64 (pos + 1) ≠ 0 then bSize else osU64SizeLoop u64 pos (bSize - 1)

/-- `os_u64_size` (lines 227–250). -/
def osU64Size (u64 : ℕ) : ℕ :=
  let bSize := osU64SizeLoop u64 7 8
  if bSize = 0 then 1 else bSize

/-- `os_u64_to_bstr` (lines 253–275). -/
def osU64ToBstr (u64 : ℕ) : Bytes :=
  (List.range (osU64Size u64)).map fun pos => UInt8.ofNat (u64Byte u64 pos)

/-! ## The size of an encoding -/

/-- The loop stops with the number of significant bytes. -/
theorem osU64SizeLoop_spec (u64 pos : ℕ) (h : u64 < 256 ^ (pos + 1)) :
    u64 < 256 ^ osU64SizeLoop u64 pos (pos + 1) ∧
      1 ≤ osU64SizeLoop u64 pos (pos + 1) ∧ osU64SizeLoop u64 pos (pos + 1) ≤ pos + 1 := by
  induction pos with
  | zero => exact ⟨by simpa [osU64SizeLoop] using h, le_refl _, le_refl _⟩
  | succ pos ih =>
    unfold osU64SizeLoop
    split_ifs with hb
    · exact ⟨h, by omega, le_refl _⟩
    · have hlt : u64 < 256 ^ (pos + 1) := by
        have hdiv : u64 / 256 ^ (pos + 1) < 256 := by
          rw [Nat.div_lt_iff_lt_mul (by positivity)]
          calc u64 < 256 ^ (pos + 1 + 1) := h
            _ = 256 * 256 ^ (pos + 1) := by ring
        have hzero : u64 / 256 ^ (pos + 1) = 0 := by
          rw [not_not] at hb
          unfold u64Byte at hb
          rwa [Nat.mod_eq_of_lt hdiv] at hb
        exact (Nat.div_eq_zero_iff_lt (by positivity)).mp hzero
      obtain ⟨h1, h2, h3⟩ := ih hlt
      rw [Nat.add_sub_cancel]
      exact ⟨h1, h2, by omega⟩

theorem osU64Size_spec {u64 : ℕ} (h : u64 < 2 ^ 64) :
    u64 < 256 ^ osU64Size u64 ∧ 1 ≤ osU64Size u64 ∧ osU64Size u64 ≤ 8 := by
  obtain ⟨h1, h2, h3⟩ := osU64SizeLoop_spec u64 7 (lt_of_lt_of_eq h (by norm_num))
  have hsize : osU64Size u64 = osU64SizeLoop u64 7 8 := if_neg (Nat.pos_iff_ne_zero.mp h2)
  rw [hsize]
  exact ⟨h1, h2, h3⟩

theorem osU64ToBstr_length {u64 : ℕ} (h : u64 < 2 ^ 64) :
    1 ≤ (osU64ToBstr u64).length ∧ (osU64ToBstr u64).length ≤ 8 := by
  obtain ⟨-, h2, h3⟩ := osU64Size_spec h
  simpa [osU64ToBstr] using ⟨h2, h3⟩

/-! ## Round trip -/

theorem ofDigits_u64Byte (u64 n : ℕ) :
    Nat.ofDigits 256 ((List.range n).map (u64Byte u64)) = u64 % 256 ^ n := by
  induction n with
  | zero => simp [Nat.mod_one]
  | succ n ih =>
    rw [List.range_succ, List.map_append, Nat.ofDigits_append, ih]
    simp only [List.length_map, List.length_range, List.map_cons, List.map_nil,
      Nat.ofDigits_singleton, u64Byte]
    rw [pow_succ, Nat.mod_mul]

/-- Decoding what was encoded gives the number back. -/
theorem osBstrToU64_osU64ToBstr {u64 : ℕ} (h : u64 < 2 ^ 64) :
    osBstrToU64 (osU64ToBstr u64) = .ok u64 := by
  obtain ⟨h1, h2⟩ := osU64ToBstr_length h
  unfold osBstrToU64
  rw [if_neg (by omega)]
  have hbytes : (osU64ToBstr u64).map UInt8.toNat = (List.range (osU64Size u64)).map (u64Byte u64) := by
    simp [osU64ToBstr, u64Byte, Function.comp_def]
  rw [hbytes, ofDigits_u64Byte, Nat.mod_eq_of_lt (osU64Size_spec h).1]

theorem ne_nil_of_osBstrToU64 {b : Bytes} {x : ℕ} (h : osBstrToU64 b = .ok x) : b ≠ [] := by
  rintro rfl
  cases h

/-- A byte string of one to eight bytes decodes. -/
theorem osBstrToU64_ok {b : Bytes} (h1 : 1 ≤ b.length) (h8 : b.length ≤ 8) :
    osBstrToU64 b = .ok (Nat.ofDigits 256 (b.map UInt8.toNat)) :=
  if_neg (by omega)

end IndexFs.Collate
