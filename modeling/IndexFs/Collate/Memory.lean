import IndexFs.Collate.Rules
import IndexFs.Lib.Footprint

/-!
# Comparison in memory

`collate_key` and the comparison functions of `object_system/ofs_collate.c` (lines
60–451) on pointers and sizes: a byte is read when the code reads it, also behind
the operand, and an address that `os_extent_pair_to_extent` left unset is read from
the stack.

Results:

* `collateKeyAt_reads`: where each operand is read within its size, the result is
  that of `collateKey` on the bytes of the operands.
* `collate_local_exact`: the comparison reads nothing else, and does not depend on it,
  exactly if `ReadsOperands` holds.
* `collate_beside_operands`: a key of zeros, strings of 16-bit characters, and an
  extent pair without a length.
-/

namespace IndexFs.Collate

/-- What `collate_key` is given: the key and the value of the entry and of the query. -/
inductive Operand
  | key1
  | value1
  | key2
  | value2
  deriving DecidableEq, Repr

/-- A byte at an offset from the pointer to an operand, or the place of `pa1` or `pa2` on the stack. -/
inductive Cell
  | byte (p : Operand) (i : ℕ)
  | pa1
  | pa2
  deriving DecidableEq, Repr

/-- What the cells hold. -/
structure Memory where
  byte : Operand → ℕ → UInt8
  pa1 : ℕ
  pa2 : ℕ

/-- `key_len` and `value_len` of the entry and of the query. -/
abbrev Sizes := Operand → ℕ

abbrev ReadM := EStateM ErrorCode (List Cell)

variable (m : Memory)

def readByte (p : Operand) (i : ℕ) : ReadM UInt8 := readCell (.byte p i) (m.byte p i)

/-- The bytes of an operand from an offset on. -/
def slice (p : Operand) (pos : ℕ) : (n : ℕ) → Bytes
  | 0 => []
  | n + 1 => m.byte p pos :: slice p (pos + 1) n

def readSlice (p : Operand) (pos : ℕ) : (n : ℕ) → ReadM Bytes
  | 0 => return []
  | n + 1 => do
    let c ← readByte m p pos
    return c :: (← readSlice p (pos + 1) n)

/-- `ASSERT(b1_size > 0); ASSERT(b2_size > 0);` -/
def assertSizes (n1 n2 : ℕ) : ReadM Unit :=
  if n1 = 0 ∨ n2 = 0 then throw .assertion else pure ()

/-! ## `CR_BINARY` -/

/-- `while ((*b == 0) && (b_size > 0))` (lines 72–76): the offset and the size that are left. -/
def skipZeros (p : Operand) : (n pos : ℕ) → ReadM (ℕ × ℕ)
  | 0, pos => do
    let _ ← readByte m p pos
    return (pos, 0)
  | n + 1, pos => do
    let c ← readByte m p pos
    if c = 0 then skipZeros p n (pos + 1) else return (pos, n + 1)

/-- The last loop of `os_collate_binary` (lines 95–111). -/
def compareBytes : (n pos1 pos2 : ℕ) → ReadM ℤ
  | 0, _, _ => return 0
  | n + 1, pos1, pos2 => do
    let c1 ← readByte m .key1 pos1
    let c2 ← readByte m .key2 pos2
    if (c2.toNat : ℤ) < c1.toNat then return 1
    else if (c1.toNat : ℤ) < c2.toNat then return -1
    else compareBytes n (pos1 + 1) (pos2 + 1)

/-- `os_collate_binary` (lines 66–114). -/
def osCollateBinaryAt (n1 n2 : ℕ) : ReadM ℤ := do
  assertSizes n1 n2
  let (pos1, n1) ← skipZeros m .key1 n1 0
  let (pos2, n2) ← skipZeros m .key2 n2 0
  if n1 > n2 then return 1
  else if n1 < n2 then return -1
  else compareBytes m n1 pos1 pos2

/-! ## `CR_ANSI_STRING` and `CR_UNICODE_STRING` -/

/-- The loop of the two functions (lines 132–151 and 178–197), which ends when either size is
used up, and the comparison of the sizes that are left. `char` reads a character by its index. -/
def compareStrings (char : Operand → ℕ → ReadM ℤ) : (n1 n2 i : ℕ) → ReadM ℤ
  | n1 + 1, n2 + 1, i => do
    let c1 ← char .key1 i
    let c2 ← char .key2 i
    if c2 < c1 then return 1
    else if c1 < c2 then return -1
    else compareStrings char n1 n2 (i + 1)
  | _ + 1, 0, _ => return 1
  | 0, _ + 1, _ => return -1
  | 0, 0, _ => return 0

def ansiCharAt (p : Operand) (i : ℕ) : ReadM ℤ := do
  let c ← readByte m p i
  return osToUpper (toChar c)

def unicodeCharAt (p : Operand) (i : ℕ) : ReadM ℤ := do
  let lo ← readByte m p (2 * i)
  let hi ← readByte m p (2 * i + 1)
  return osToUpper (lo.toNat + 256 * hi.toNat)

/-- `os_collate_ansi_string` (lines 169–209). -/
def osCollateAnsiStringAt (n1 n2 : ℕ) : ReadM ℤ := do
  assertSizes n1 n2
  compareStrings (ansiCharAt m) n1 n2 0

/-- `os_collate_unicode_string` (lines 122–163): the sizes count characters. -/
def osCollateUnicodeStringAt (n1 n2 : ℕ) : ReadM ℤ := do
  assertSizes n1 n2
  compareStrings (unicodeCharAt m) n1 n2 0

/-! ## Numbers and extents -/

/-- `os_bstr_to_u64` (lines 212–228). -/
def osBstrToU64At (p : Operand) (pos n : ℕ) : ReadM ℕ :=
  if n = 0 ∨ 8 < n then throw .assertion
  else do return Nat.ofDigits 256 ((← readSlice m p pos n).map UInt8.toNat)

/-- `os_collate_u64` (lines 284–300). -/
def osCollateU64At (n1 n2 : ℕ) : ReadM ℤ := do
  let u64_1 ← osBstrToU64At m .key1 0 n1
  let u64_2 ← osBstrToU64At m .key2 0 n2
  return collateOrd u64_1 u64_2

/-- `os_collate_extent` (lines 336–363). -/
def osCollateExtentAt (size : Sizes) : ReadM ℤ :=
  if size .value2 = 0 ∨ size .value1 = 0 then osCollateU64At m (size .key1) (size .key2)
  else do
    let addr1 ← osBstrToU64At m .key1 0 (size .key1)
    let addr2 ← osBstrToU64At m .key2 0 (size .key2)
    let len1 ← osBstrToU64At m .value1 0 (size .value1)
    let len2 ← osBstrToU64At m .value2 0 (size .value2)
    if addr1 ≥ (addr2 + len2) % 2 ^ 64 then return 1
    else if (addr1 + len1) % 2 ^ 64 ≤ addr2 then return -1
    else return 0

/-- `os_extent_pair_to_extent` (lines 317–328) of a value of `n` bytes: the length, and the address
unless it is left unset. -/
def osExtentPairToExtentAt (p : Operand) (n : ℕ) : ReadM (ℕ × Option ℕ) := do
  let paSize := (← readByte m p 0).toNat
  if n ≤ paSize + 1 then return (0, none)
  else
    let pa ← osBstrToU64At m p 1 paSize
    let len ← osBstrToU64At m p (1 + paSize) (n - paSize - 1)
    return (len, some pa)

/-- The local variable `pa1` or `pa2`, in the cell `c` of the stack. -/
def readPa (c : Cell) (stack : ℕ) : Option ℕ → ReadM ℕ
  | some pa => return pa
  | none => readCell c stack

/-- `os_collate_extent_map` (lines 371–409). -/
def osCollateExtentMapAt (size : Sizes) : ReadM ℤ :=
  if size .value2 = 0 ∨ size .value1 = 0 then osCollateU64At m (size .key1) (size .key2)
  else do
    let va1 ← osBstrToU64At m .key1 0 (size .key1)
    let va2 ← osBstrToU64At m .key2 0 (size .key2)
    let (len1, pa1) ← osExtentPairToExtentAt m .value1 (size .value1)
    let (len2, pa2) ← osExtentPairToExtentAt m .value2 (size .value2)
    if va1 ≥ (va2 + len2) % 2 ^ 64 then return 1
    else if (va1 + len1) % 2 ^ 64 ≤ va2 then return -1
    else
      let pa1 ← readPa .pa1 m.pa1 pa1
      let pa2 ← readPa .pa2 m.pa2 pa2
      if pa1 ≥ (pa2 + len2) % 2 ^ 64 then return 1
      else if (pa1 + len1) % 2 ^ 64 ≤ pa2 then return -1
      else return 0

/-- `collate_key` (lines 412–451). -/
def collateKeyAt (cr : CollateRule) (size : Sizes) : ReadM ℤ :=
  if size .key2 = 0 then throw .assertion
  else match cr with
    | .binary => osCollateBinaryAt m (size .key1) (size .key2)
    | .ansiString => osCollateAnsiStringAt m (size .key1) (size .key2)
    | .unicodeString => osCollateUnicodeStringAt m (size .key1) (size .key2)
    | .u64 => osCollateU64At m (size .key1) (size .key2)
    | .extent => osCollateExtentAt m size
    | .extentMap => osCollateExtentMapAt m size

/-! ## Bytes of an operand -/

section Slice

variable {m}
variable {p : Operand} {S : Set Cell}

@[simp] theorem slice_length (pos n : ℕ) : (slice m p pos n).length = n := by
  induction n generalizing pos with
  | zero => rfl
  | succ n ih => rw [slice, List.length_cons, ih]

theorem slice_add (pos a b : ℕ) : slice m p pos (a + b) = slice m p pos a ++ slice m p (pos + a) b := by
  induction a generalizing pos with
  | zero => simp [slice]
  | succ a ih =>
    rw [Nat.add_right_comm, slice, ih, slice, List.cons_append, Nat.add_assoc, Nat.add_comm 1 a]

theorem slice_getElem? {n i : ℕ} (pos : ℕ) (hi : i < n) : (slice m p pos n)[i]? = some (m.byte p (pos + i)) := by
  induction n generalizing pos i with
  | zero => exact absurd hi (Nat.not_lt_zero i)
  | succ n ih =>
    cases i with
    | zero => rfl
    | succ i =>
      rw [slice, List.getElem?_cons_succ, ih (pos + 1) (Nat.lt_of_succ_lt_succ hi)]
      congr 2
      omega

theorem slice_congr {m' : Memory} {n : ℕ} (pos : ℕ) (h : ∀ i < pos + n, m.byte p i = m'.byte p i) :
    slice m p pos n = slice m' p pos n := by
  induction n generalizing pos with
  | zero => rfl
  | succ n ih =>
    rw [slice, slice, h pos (by omega), ih (pos + 1) fun i hi => h i (by omega)]

theorem readByte_reads {i : ℕ} (hi : .byte p i ∈ S) : Reads (readByte m p i) S (.ok (m.byte p i)) :=
  readCell_reads _ _ hi

theorem readSlice_reads {n : ℕ} (pos : ℕ) (hS : ∀ i < pos + n, .byte p i ∈ S) :
    Reads (readSlice m p pos n) S (.ok (slice m p pos n)) := by
  induction n generalizing pos with
  | zero => exact Reads.pure _
  | succ n ih =>
    refine (readByte_reads (hS pos (by omega))).seq ?_
    refine (ih (pos + 1) fun i hi => hS i (by omega)).seq ?_
    exact Reads.pure _

theorem osBstrToU64At_reads {n : ℕ} (pos : ℕ) (hS : ∀ i < pos + n, .byte p i ∈ S) :
    Reads (osBstrToU64At m p pos n) S (osBstrToU64 (slice m p pos n)) := by
  unfold osBstrToU64At osBstrToU64
  rw [slice_length]
  split_ifs with h
  · exact Reads.throw _
  · exact (readSlice_reads pos hS).seq (Reads.pure _)

theorem slice_eq_nil {pos n : ℕ} : slice m p pos n = [] ↔ n = 0 := by
  rw [← List.length_eq_zero_iff, slice_length]

/-- The assertions hold, here and on the bytes, if neither size is zero. -/
theorem assertSizes_reads {n1 n2 : ℕ} (h1 : n1 ≠ 0) (h2 : n2 ≠ 0) :
    Reads (assertSizes n1 n2) S (.ok ()) := by
  unfold assertSizes
  rw [if_neg (not_or.mpr ⟨h1, h2⟩)]
  exact Reads.pure _

end Slice

/-! ## The bytes that belong to a comparison -/

/-- The sizes that count: a rule other than the two for extents has no use for values. -/
def operandSize (cr : CollateRule) (size : Sizes) : Operand → ℕ
  | .key1 => size .key1
  | .key2 => size .key2
  | .value1 => if cr = .extent ∨ cr = .extentMap then size .value1 else 0
  | .value2 => if cr = .extent ∨ cr = .extentMap then size .value2 else 0

/-- The bytes of the operands. -/
def Within (cr : CollateRule) (size : Sizes) : Set Cell :=
  {c | ∃ p, ∃ i < operandSize cr size p, c = .byte p i}

/-- The two memories hold the same operands. -/
def Agree (cr : CollateRule) (size : Sizes) (m m' : Memory) : Prop :=
  ∀ p, ∀ i < operandSize cr size p, m.byte p i = m'.byte p i

/-- The comparison reads bytes of the operands only, and has the same result on each memory that
holds the same operands. -/
def Local (cr : CollateRule) (size : Sizes) (m : Memory) : Prop :=
  (∀ c ∈ readsOf (collateKeyAt m cr size), c ∈ Within cr size) ∧
    ∀ m', Agree cr size m m' → resultOf (collateKeyAt m' cr size) = resultOf (collateKeyAt m cr size)

/-- The operands in `m`. -/
def operand (cr : CollateRule) (size : Sizes) (p : Operand) : Bytes := slice m p 0 (operandSize cr size p)

/-- Where `collate_key` stays within its operands `b`. `os_collate_binary` looks at a byte before it looks
at the size, so a key of zeros is read past its end; `os_collate_unicode_string` takes sizes in bytes for
numbers of characters, so two characters within the keys must differ; a pair without a length leaves the
address unset, so the comparison must not come to the addresses. -/
def ReadsOperands (cr : CollateRule) (b : Operand → Bytes) : Prop :=
  b .key1 = [] ∨ b .key2 = [] ∨
    match cr with
    | .binary => (∃ c ∈ b .key1, c ≠ 0) ∧ ∃ c ∈ b .key2, c ≠ 0
    | .unicodeString => ∃ j c1 c2, unicodeChar (b .key1) j = .ok c1 ∧ unicodeChar (b .key2) j = .ok c2 ∧
        osToUpper c1 ≠ osToUpper c2
    | .extentMap => ∀ va1 va2 len1 len2 pa1 pa2, osBstrToU64 (b .key1) = .ok va1 → osBstrToU64 (b .key2) = .ok va2 →
        osExtentPairToExtent (b .value1) = .ok (len1, pa1) → osExtentPairToExtent (b .value2) = .ok (len2, pa2) →
        va1 < (va2 + len2) % 2 ^ 64 → va2 < (va1 + len1) % 2 ^ 64 → pa1 ≠ none ∧ pa2 ≠ none
    | _ => True

/-! ## Strings of bytes -/

section Strings

variable {m}
variable {p : Operand} {S : Set Cell} {n : ℕ}

theorem skipZeros_reads (pos : ℕ) (hS : ∀ i < pos + n, .byte p i ∈ S) (h : ∃ c ∈ slice m p pos n, c ≠ 0) :
    ∃ pos' n', Reads (skipZeros m p n pos) S (.ok (pos', n')) ∧ pos' + n' = pos + n ∧
      slice m p pos' n' = (slice m p pos n).dropWhile (· == 0) := by
  induction n generalizing pos with
  | zero => simp [slice] at h
  | succ n ih =>
    have hhead := readByte_reads (m := m) (hS pos (by omega))
    unfold skipZeros
    by_cases hc : m.byte p pos = 0
    · have hrest : ∃ c ∈ slice m p (pos + 1) n, c ≠ 0 := by
        obtain ⟨c, hmem, hne⟩ := h
        rcases List.mem_cons.mp hmem with rfl | hmem
        · exact absurd hc hne
        · exact ⟨c, hmem, hne⟩
      obtain ⟨pos', n', hreads, hend, hdrop⟩ := ih (pos + 1) (fun i hi => hS i (by omega)) hrest
      refine ⟨pos', n', hhead.seq ?_, by omega, ?_⟩
      · rw [if_pos hc]
        exact hreads
      · rw [hdrop, slice, List.dropWhile_cons_of_pos (by simpa using hc)]
    · refine ⟨pos, n + 1, hhead.seq ?_, rfl, ?_⟩
      · rw [if_neg hc]
        exact Reads.pure _
      · rw [slice, List.dropWhile_cons_of_neg (by simpa using hc)]

/-- Over zeros only, the loop looks at the byte behind the operand. -/
theorem skipZeros_touches (pos : ℕ) (h : ∀ c ∈ slice m p pos n, c = 0) :
    Touches (skipZeros m p n pos) (.byte p (pos + n)) := by
  induction n generalizing pos with
  | zero =>
    unfold skipZeros
    exact (readCell_touches _ _).left fun _ => Relates.pure _
  | succ n ih =>
    rw [slice, List.forall_mem_cons] at h
    unfold skipZeros
    refine Reads.touches (readByte_reads (Set.mem_univ _)) ?_
    rw [if_pos h.1, Nat.add_comm n 1, ← Nat.add_assoc]
    exact ih (pos + 1) h.2

theorem compareBytes_reads (pos1 pos2 : ℕ) (hS1 : ∀ i < pos1 + n, .byte .key1 i ∈ S)
    (hS2 : ∀ i < pos2 + n, .byte .key2 i ∈ S) : Reads (compareBytes m n pos1 pos2) S
      (.ok (collateLoop (fun c => (c.toNat : ℤ)) (slice m .key1 pos1 n) (slice m .key2 pos2 n))) := by
  induction n generalizing pos1 pos2 with
  | zero => exact Reads.pure _
  | succ n ih =>
    unfold compareBytes
    refine (readByte_reads (hS1 pos1 (by omega))).seq ?_
    refine (readByte_reads (hS2 pos2 (by omega))).seq ?_
    rw [slice, slice, collateLoop]
    split_ifs
    · exact Reads.pure _
    · exact Reads.pure _
    · exact ih (pos1 + 1) (pos2 + 1) (fun i hi => hS1 i (by omega)) fun i hi => hS2 i (by omega)

theorem osCollateBinaryAt_reads {n1 n2 : ℕ} (hn1 : n1 ≠ 0) (hn2 : n2 ≠ 0) (hS1 : ∀ i < n1, .byte .key1 i ∈ S)
    (hS2 : ∀ i < n2, .byte .key2 i ∈ S) (h1 : ∃ c ∈ slice m .key1 0 n1, c ≠ 0)
    (h2 : ∃ c ∈ slice m .key2 0 n2, c ≠ 0) :
    Reads (osCollateBinaryAt m n1 n2) S (osCollateBinary (slice m .key1 0 n1) (slice m .key2 0 n2)) := by
  obtain ⟨pos1, k1, hreads1, hend1, hdrop1⟩ := skipZeros_reads 0 (by simpa using hS1) h1
  obtain ⟨pos2, k2, hreads2, hend2, hdrop2⟩ := skipZeros_reads 0 (by simpa using hS2) h2
  refine (assertSizes_reads hn1 hn2).seq (hreads1.seq (hreads2.seq ?_))
  unfold osCollateBinary
  rw [assertNonempty_ok (by rwa [ne_eq, slice_eq_nil]) (by rwa [ne_eq, slice_eq_nil]), ← hdrop1, ← hdrop2]
  simp only [slice_length, bind, Except.bind]
  split_ifs with hgt hlt
  · exact Reads.pure _
  · exact Reads.pure _
  · obtain rfl : k1 = k2 := by omega
    exact compareBytes_reads pos1 pos2 (fun i hi => hS1 i (by omega)) fun i hi => hS2 i (by omega)

theorem ansiCharAt_reads {i : ℕ} (hi : .byte p i ∈ S) :
    Reads (ansiCharAt m p i) S (.ok (osToUpper (toChar (m.byte p i)))) :=
  (readByte_reads hi).seq (Reads.pure _)

theorem compareAnsi_reads (n1 n2 i : ℕ) (hS1 : ∀ j < i + n1, .byte .key1 j ∈ S)
    (hS2 : ∀ j < i + n2, .byte .key2 j ∈ S) : Reads (compareStrings (ansiCharAt m) n1 n2 i) S
      (.ok (collateLoop (fun c => osToUpper (toChar c)) (slice m .key1 i n1) (slice m .key2 i n2))) := by
  induction n1 generalizing n2 i with
  | zero =>
    cases n2 with
    | zero => exact Reads.pure _
    | succ n2 => exact Reads.pure _
  | succ n1 ih =>
    cases n2 with
    | zero => exact Reads.pure _
    | succ n2 =>
      unfold compareStrings
      refine (ansiCharAt_reads (hS1 i (by omega))).seq ?_
      refine (ansiCharAt_reads (hS2 i (by omega))).seq ?_
      rw [slice, slice, collateLoop]
      split_ifs
      · exact Reads.pure _
      · exact Reads.pure _
      · exact ih n2 (i + 1) (fun j hj => hS1 j (by omega)) fun j hj => hS2 j (by omega)

theorem osCollateAnsiStringAt_reads {n1 n2 : ℕ} (hn1 : n1 ≠ 0) (hn2 : n2 ≠ 0)
    (hS1 : ∀ i < n1, .byte .key1 i ∈ S) (hS2 : ∀ i < n2, .byte .key2 i ∈ S) :
    Reads (osCollateAnsiStringAt m n1 n2) S (osCollateAnsiString (slice m .key1 0 n1) (slice m .key2 0 n2)) := by
  refine (assertSizes_reads hn1 hn2).seq ?_
  unfold osCollateAnsiString
  rw [assertNonempty_ok (by rwa [ne_eq, slice_eq_nil]) (by rwa [ne_eq, slice_eq_nil])]
  exact compareAnsi_reads _ _ 0 (by simpa using hS1) (by simpa using hS2)

end Strings

/-! ## Strings of 16-bit characters -/

section Unicode

variable {m}
variable {p : Operand} {S : Set Cell} {N1 N2 : ℕ}

/-- The character that `unicodeCharAt` reads, in upper case. -/
def upperAt (m : Memory) (p : Operand) (i : ℕ) : ℤ :=
  osToUpper ((m.byte p (2 * i)).toNat + 256 * (m.byte p (2 * i + 1)).toNat)

theorem unicodeChar_slice {n i : ℕ} (hi : 2 * i + 1 < n) : unicodeChar (slice m p 0 n) i =
    .ok ((m.byte p (2 * i)).toNat + 256 * (m.byte p (2 * i + 1)).toNat) := by
  unfold unicodeChar
  rw [slice_getElem? 0 (by omega), slice_getElem? 0 hi]
  simp

theorem unicodeChar_slice_ok {n i : ℕ} {c : ℤ} (h : unicodeChar (slice m p 0 n) i = .ok c) :
    2 * i + 1 < n ∧ osToUpper c = upperAt m p i := by
  by_cases hi : 2 * i + 1 < n
  · rw [unicodeChar_slice hi, Except.ok.injEq] at h
    exact ⟨hi, by rw [← h]; rfl⟩
  · have hnone : (slice m p 0 n)[2 * i + 1]? = none := List.getElem?_eq_none (by rw [slice_length]; omega)
    unfold unicodeChar at h
    rw [hnone] at h
    simp at h

theorem unicodeCharAt_reads {i : ℕ} (hlo : .byte p (2 * i) ∈ S) (hhi : .byte p (2 * i + 1) ∈ S) :
    Reads (unicodeCharAt m p i) S (.ok (upperAt m p i)) :=
  (readByte_reads hlo).seq ((readByte_reads hhi).seq (Reads.pure _))

theorem unicodeCharAt_relates (i : ℕ) : Relates (· ⊆ ·) (unicodeCharAt m p i) :=
  (readCell_relates _ _).bind fun _ => (readCell_relates _ _).bind fun _ => Relates.pure _

theorem unicodeCharAt_touches (i : ℕ) : Touches (unicodeCharAt m p i) (.byte p (2 * i + 1)) := by
  unfold unicodeCharAt
  refine Reads.touches (readByte_reads (Set.mem_univ _)) ?_
  exact (readCell_touches _ _).left fun _ => Relates.pure _

theorem compareUnicode_relates (n1 n2 i : ℕ) : Relates (· ⊆ ·) (compareStrings (unicodeCharAt m) n1 n2 i) := by
  induction n1 generalizing n2 i with
  | zero => cases n2 <;> exact Relates.pure _
  | succ n1 ih =>
    cases n2 with
    | zero => exact Relates.pure _
    | succ n2 =>
      unfold compareStrings
      refine (unicodeCharAt_relates _).bind fun c1 => (unicodeCharAt_relates _).bind fun c2 => ?_
      exact Relates.ite (Relates.pure _) (Relates.ite (Relates.pure _) (ih _ _))

theorem collateUnicodeLoop_slice {i : ℕ} (n : ℕ) (h1 : 2 * i + 1 < N1) (h2 : 2 * i + 1 < N2) :
    collateUnicodeLoop (slice m .key1 0 N1) (slice m .key2 0 N2) (n + 1) i =
      if upperAt m .key2 i < upperAt m .key1 i then .ok 1
      else if upperAt m .key1 i < upperAt m .key2 i then .ok (-1)
      else collateUnicodeLoop (slice m .key1 0 N1) (slice m .key2 0 N2) n (i + 1) := by
  rw [collateUnicodeLoop, unicodeChar_slice h1, unicodeChar_slice h2]
  rfl

/-- Up to the first difference the loop is that on the bytes of the keys. -/
theorem compareUnicode_reads (n1 n2 i : ℕ) (hn1 : i + n1 = N1) (hn2 : i + n2 = N2)
    (hS1 : ∀ j < N1, .byte .key1 j ∈ S) (hS2 : ∀ j < N2, .byte .key2 j ∈ S)
    (h : ∃ j ≥ i, 2 * j + 1 < N1 ∧ 2 * j + 1 < N2 ∧ upperAt m .key1 j ≠ upperAt m .key2 j) :
    ∃ r ≠ 0, collateUnicodeLoop (slice m .key1 0 N1) (slice m .key2 0 N2) (min n1 n2) i = .ok r ∧
      Reads (compareStrings (unicodeCharAt m) n1 n2 i) S (.ok r) := by
  obtain ⟨j, hij, hj1, hj2, hne⟩ := h
  induction n1 generalizing n2 i with
  | zero => omega
  | succ n1 ih =>
    cases n2 with
    | zero => omega
    | succ n2 =>
      have hread1 := unicodeCharAt_reads (m := m) (hS1 (2 * i) (by omega)) (hS1 (2 * i + 1) (by omega))
      have hread2 := unicodeCharAt_reads (m := m) (hS2 (2 * i) (by omega)) (hS2 (2 * i + 1) (by omega))
      rw [Nat.succ_min_succ, collateUnicodeLoop_slice _ (by omega) (by omega), compareStrings]
      rcases lt_trichotomy (upperAt m .key1 i) (upperAt m .key2 i) with hlt | heq | hgt
      · refine ⟨-1, by decide, ?_, hread1.seq (hread2.seq ?_)⟩
        · rw [if_neg hlt.not_gt, if_pos hlt]
        · rw [if_neg hlt.not_gt, if_pos hlt]
          exact Reads.pure _
      · have hnext : i + 1 ≤ j := by
          rcases Nat.eq_or_lt_of_le hij with rfl | hlt
          · exact absurd heq hne
          · exact hlt
        obtain ⟨r, hr, hloop, hreads⟩ := ih n2 (i + 1) (by omega) (by omega) hnext
        refine ⟨r, hr, ?_, hread1.seq (hread2.seq ?_)⟩
        · rw [if_neg heq.not_gt, if_neg heq.not_lt]
          exact hloop
        · rw [if_neg heq.not_gt, if_neg heq.not_lt]
          exact hreads
      · refine ⟨1, by decide, ?_, hread1.seq (hread2.seq ?_)⟩
        · rw [if_pos hgt]
        · rw [if_pos hgt]
          exact Reads.pure _

theorem osCollateUnicodeStringAt_reads {n1 n2 : ℕ} (hn1 : n1 ≠ 0) (hn2 : n2 ≠ 0)
    (hS1 : ∀ i < n1, .byte .key1 i ∈ S) (hS2 : ∀ i < n2, .byte .key2 i ∈ S)
    (h : ∃ j c1 c2, unicodeChar (slice m .key1 0 n1) j = .ok c1 ∧ unicodeChar (slice m .key2 0 n2) j = .ok c2 ∧
      osToUpper c1 ≠ osToUpper c2) :
    Reads (osCollateUnicodeStringAt m n1 n2) S
      (osCollateUnicodeString (slice m .key1 0 n1) (slice m .key2 0 n2)) := by
  obtain ⟨j, c1, c2, hc1, hc2, hne⟩ := h
  obtain ⟨hj1, hup1⟩ := unicodeChar_slice_ok hc1
  obtain ⟨hj2, hup2⟩ := unicodeChar_slice_ok hc2
  rw [hup1, hup2] at hne
  obtain ⟨r, hr, hloop, hreads⟩ := compareUnicode_reads _ _ 0 (Nat.zero_add _) (Nat.zero_add _) hS1 hS2
    ⟨j, Nat.zero_le j, hj1, hj2, hne⟩
  refine (assertSizes_reads hn1 hn2).seq ?_
  unfold osCollateUnicodeString
  rw [assertNonempty_ok (by rwa [ne_eq, slice_eq_nil]) (by rwa [ne_eq, slice_eq_nil]), slice_length, slice_length,
    hloop]
  simp only [bind, Except.bind]
  rw [if_pos hr]
  exact hreads

/-- Without a difference the loop reads behind the shorter key: it takes twice as many bytes as there are. -/
theorem compareUnicode_touches (n1 n2 i : ℕ) (hn1 : i + n1 = N1) (hn2 : i + n2 = N2) (h1 : 0 < n1) (h2 : 0 < n2)
    (h : ∀ j, 2 * j + 1 < N1 → 2 * j + 1 < N2 → upperAt m .key1 j = upperAt m .key2 j) :
    (∃ k ≥ N1, Touches (compareStrings (unicodeCharAt m) n1 n2 i) (.byte .key1 k)) ∨
      ∃ k ≥ N2, Touches (compareStrings (unicodeCharAt m) n1 n2 i) (.byte .key2 k) := by
  have hread : ∀ p j, Reads (unicodeCharAt m p j) Set.univ (.ok (upperAt m p j)) := fun p j =>
    unicodeCharAt_reads (Set.mem_univ _) (Set.mem_univ _)
  have hrest : ∀ (c1 c2 : ℤ) (n1 n2 i : ℕ), Relates (· ⊆ ·) (if c2 < c1 then (return 1 : ReadM ℤ) else
      if c1 < c2 then return -1 else compareStrings (unicodeCharAt m) n1 n2 i) := fun c1 c2 n1 n2 i =>
    Relates.ite (Relates.pure _) (Relates.ite (Relates.pure _) (compareUnicode_relates _ _ _))
  induction n1 generalizing n2 i with
  | zero => omega
  | succ n1 ih =>
    cases n2 with
    | zero => omega
    | succ n2 =>
      by_cases hi1 : 2 * i + 1 < N1
      · by_cases hi2 : 2 * i + 1 < N2
        · -- the characters lie within both keys and are equal
          have heq := h i hi1 hi2
          have hstep : ∀ {c}, Touches (compareStrings (unicodeCharAt m) n1 n2 (i + 1)) c →
              Touches (compareStrings (unicodeCharAt m) (n1 + 1) (n2 + 1) i) c := by
            intro c hc
            rw [compareStrings]
            refine Reads.touches (hread .key1 i) (Reads.touches (hread .key2 i) ?_)
            rw [if_neg heq.not_gt, if_neg heq.not_lt]
            exact hc
          rcases ih n2 (i + 1) (by omega) (by omega) (by omega) (by omega) with ⟨k, hk, ht⟩ | ⟨k, hk, ht⟩
          · exact .inl ⟨k, hk, hstep ht⟩
          · exact .inr ⟨k, hk, hstep ht⟩
        · rw [compareStrings]
          refine .inr ⟨2 * i + 1, by omega, Reads.touches (hread .key1 i) ?_⟩
          exact (unicodeCharAt_touches i).left fun c2 => hrest _ c2 _ _ _
      · rw [compareStrings]
        refine .inl ⟨2 * i + 1, by omega, (unicodeCharAt_touches i).left fun c1 => ?_⟩
        exact (unicodeCharAt_relates _).bind fun c2 => hrest c1 c2 _ _ _

end Unicode

/-! ## Extents -/

section Extents

variable {m}
variable {p : Operand} {S : Set Cell} {size : Sizes}

theorem osCollateU64At_reads (n1 n2 : ℕ) (hS1 : ∀ i < n1, .byte .key1 i ∈ S) (hS2 : ∀ i < n2, .byte .key2 i ∈ S) :
    Reads (osCollateU64At m n1 n2) S (osCollateU64 (slice m .key1 0 n1) (slice m .key2 0 n2)) := by
  refine (osBstrToU64At_reads 0 (by simpa using hS1)).bind fun _ _ => ?_
  exact (osBstrToU64At_reads 0 (by simpa using hS2)).bind fun _ _ => Reads.pure _

theorem osCollateExtentAt_reads (hS : ∀ p, ∀ i < size p, .byte p i ∈ S) :
    Reads (osCollateExtentAt m size) S (osCollateExtent (slice m .key1 0 (size .key1))
      (slice m .value1 0 (size .value1)) (slice m .key2 0 (size .key2)) (slice m .value2 0 (size .value2))) := by
  have hnum : ∀ p, Reads (osBstrToU64At m p 0 (size p)) S (osBstrToU64 (slice m p 0 (size p))) := fun p =>
    osBstrToU64At_reads 0 (by simpa using hS p)
  unfold osCollateExtentAt osCollateExtent
  simp only [slice_eq_nil]
  split_ifs with hempty
  · exact osCollateU64At_reads _ _ (hS .key1) (hS .key2)
  · refine (hnum .key1).bind fun addr1 _ => (hnum .key2).bind fun addr2 _ => ?_
    refine (hnum .value1).bind fun len1 _ => (hnum .value2).bind fun len2 _ => ?_
    split_ifs
    · exact Reads.pure _
    · exact Reads.pure _
    · exact Reads.pure _

theorem osExtentPairToExtentAt_reads {n : ℕ} (hn : 0 < n) (hS : ∀ i < n, .byte p i ∈ S) :
    Reads (osExtentPairToExtentAt m p n) S (osExtentPairToExtent (slice m p 0 n)) := by
  obtain ⟨n, rfl⟩ := Nat.exists_eq_succ_of_ne_zero hn.ne'
  unfold osExtentPairToExtentAt osExtentPairToExtent
  refine (readByte_reads (hS 0 hn)).seq ?_
  simp only [slice, List.length_cons, slice_length, Nat.zero_add]
  split_ifs with hshort
  · exact Reads.pure _
  · -- what follows the first byte is the address and the length
    have hsplit := slice_add (m := m) (p := p) 1 (m.byte p 0).toNat (n - (m.byte p 0).toNat)
    rw [Nat.add_sub_cancel' (by omega)] at hsplit
    rw [hsplit, List.take_left' (slice_length _ _), List.drop_left' (slice_length _ _)]
    refine (osBstrToU64At_reads 1 fun i hi => hS i (by omega)).bind fun pa _ => ?_
    rw [show n + 1 - (m.byte p 0).toNat - 1 = n - (m.byte p 0).toNat by omega]
    exact (osBstrToU64At_reads _ fun i hi => hS i (by omega)).bind fun len _ => Reads.pure _

/-- What is decoded before the addresses of a pair are compared. -/
theorem osCollateExtentMapAt_reads (hS : ∀ p, ∀ i < size p, .byte p i ∈ S)
    (h : ReadsOperands .extentMap fun p => slice m p 0 (size p)) :
    Reads (osCollateExtentMapAt m size) S (osCollateExtentMap (slice m .key1 0 (size .key1))
      (slice m .value1 0 (size .value1)) (slice m .key2 0 (size .key2)) (slice m .value2 0 (size .value2))) := by
  have hnum : ∀ p, Reads (osBstrToU64At m p 0 (size p)) S (osBstrToU64 (slice m p 0 (size p))) := fun p =>
    osBstrToU64At_reads 0 (by simpa using hS p)
  unfold osCollateExtentMapAt osCollateExtentMap
  simp only [slice_eq_nil]
  split_ifs with hempty
  · exact osCollateU64At_reads _ _ (hS .key1) (hS .key2)
  · rw [not_or] at hempty
    refine (hnum .key1).bind fun va1 hva1 => (hnum .key2).bind fun va2 hva2 => ?_
    refine (osExtentPairToExtentAt_reads (Nat.pos_of_ne_zero hempty.2) (hS .value1)).bind fun e1 he1 => ?_
    refine (osExtentPairToExtentAt_reads (Nat.pos_of_ne_zero hempty.1) (hS .value2)).bind fun e2 he2 => ?_
    obtain ⟨len1, pa1⟩ := e1
    obtain ⟨len2, pa2⟩ := e2
    dsimp only
    split_ifs with hafter hbefore
    · exact Reads.pure _
    · exact Reads.pure _
    · have hset : pa1 ≠ none ∧ pa2 ≠ none := by
        rcases h with hnil | hnil | h
        · exact absurd hnil (ne_nil_of_osBstrToU64 hva1)
        · exact absurd hnil (ne_nil_of_osBstrToU64 hva2)
        · exact h va1 va2 len1 len2 pa1 pa2 hva1 hva2 he1 he2 (not_le.mp hafter) (not_le.mp hbefore)
      obtain ⟨pa1, rfl⟩ := Option.ne_none_iff_exists'.mp hset.1
      obtain ⟨pa2, rfl⟩ := Option.ne_none_iff_exists'.mp hset.2
      refine (Reads.pure pa1).seq ((Reads.pure pa2).seq ?_)
      simp only [setAddress, bind, Except.bind]
      split_ifs
      · exact Reads.pure _
      · exact Reads.pure _
      · exact Reads.pure _

end Extents

/-! ## Locality -/

section Locality

variable {m}
variable {cr : CollateRule} {size : Sizes}

theorem operand_congr {m' : Memory} (h : Agree cr size m m') : operand m cr size = operand m' cr size := by
  funext p
  exact slice_congr 0 fun i hi => h p i (by omega)

theorem mem_Within {p : Operand} : ∀ i < operandSize cr size p, .byte p i ∈ Within cr size := fun i hi =>
  ⟨p, i, hi, rfl⟩

theorem assertSizes_throws {S : Set Cell} {n1 n2 : ℕ} (h : n1 = 0 ∨ n2 = 0) :
    Reads (assertSizes n1 n2) S (.error .assertion) := by
  unfold assertSizes
  rw [if_pos h]
  exact Reads.throw _

/-- An entry, a key and a value that lie in the memory. -/
structure Holds (m : Memory) (size : Sizes) (ie : IndexEntry) (key value : Bytes) : Prop where
  key1 : slice m .key1 0 (size .key1) = ie.key
  value1 : slice m .value1 0 (size .value1) = ie.value
  key2 : slice m .key2 0 (size .key2) = key
  value2 : slice m .value2 0 (size .value2) = value

/-- An empty key is refused before anything is read. -/
theorem collateKeyAt_empty {S : Set Cell} (h : size .key1 = 0 ∨ size .key2 = 0) :
    Reads (collateKeyAt m cr size) S (.error .assertion) := by
  unfold collateKeyAt
  split_ifs with h2
  · exact Reads.throw _
  · have hassert : Reads (assertSizes (size .key1) (size .key2)) S (.error .assertion) := assertSizes_throws h
    have hnum : Reads (osBstrToU64At m .key1 0 (size .key1)) S (.error .assertion) := by
      unfold osBstrToU64At
      rw [if_pos (.inl (h.resolve_right h2))]
      exact Reads.throw _
    have hU64 : Reads (osCollateU64At m (size .key1) (size .key2)) S (.error .assertion) := hnum.throws
    cases cr with
    | binary => exact hassert.throws
    | ansiString => exact hassert.throws
    | unicodeString => exact hassert.throws
    | u64 => exact hU64
    | extent =>
      dsimp only
      unfold osCollateExtentAt
      split_ifs
      · exact hU64
      · exact hnum.throws
    | extentMap =>
      dsimp only
      unfold osCollateExtentMapAt
      split_ifs
      · exact hU64
      · exact hnum.throws

theorem collateKey_empty {ie : IndexEntry} {key value : Bytes} (h : ie.key = [] ∨ key = []) :
    collateKey cr ie key value = .error .assertion := by
  unfold collateKey
  split_ifs with hkey
  · rfl
  · have hie := h.resolve_right hkey
    have hU64 : osCollateU64 [] key = .error .assertion := rfl
    rw [hie]
    cases cr with
    | binary => rfl
    | ansiString => rfl
    | unicodeString => rfl
    | u64 => rfl
    | extent =>
      dsimp only
      unfold osCollateExtent
      split_ifs
      · exact hU64
      · rfl
    | extentMap =>
      dsimp only
      unfold osCollateExtentMap
      split_ifs
      · exact hU64
      · rfl

theorem operandSize_of_extents (hcr : cr = .extent ∨ cr = .extentMap) : operandSize cr size = size := by
  funext p
  cases p with
  | key1 => rfl
  | key2 => rfl
  | value1 => exact if_pos hcr
  | value2 => exact if_pos hcr

/-- `collate_key` on memory is `collateKey` on what the memory holds. -/
theorem collateKeyAt_reads {ie : IndexEntry} {key value : Bytes} (hm : Holds m size ie key value)
    (h : ReadsOperands cr (operand m cr size)) :
    Reads (collateKeyAt m cr size) (Within cr size) (collateKey cr ie key value) := by
  by_cases hempty : size .key1 = 0 ∨ size .key2 = 0
  · rw [collateKey_empty (by rwa [← hm.key1, ← hm.key2, slice_eq_nil, slice_eq_nil])]
    exact collateKeyAt_empty hempty
  · rw [not_or] at hempty
    have hne1 : slice m .key1 0 (size .key1) ≠ [] := fun hnil => hempty.1 (slice_eq_nil.mp hnil)
    have hne2 : slice m .key2 0 (size .key2) ≠ [] := fun hnil => hempty.2 (slice_eq_nil.mp hnil)
    have hS1 : ∀ i < size .key1, .byte .key1 i ∈ Within cr size := mem_Within (p := .key1)
    have hS2 : ∀ i < size .key2, .byte .key2 i ∈ Within cr size := mem_Within (p := .key2)
    unfold collateKeyAt collateKey
    rw [if_neg hempty.2, ← hm.key1, ← hm.key2, ← hm.value1, ← hm.value2, if_neg hne2]
    have hread := (h.resolve_left hne1).resolve_left hne2
    cases cr with
    | binary => exact osCollateBinaryAt_reads hempty.1 hempty.2 hS1 hS2 hread.1 hread.2
    | ansiString => exact osCollateAnsiStringAt_reads hempty.1 hempty.2 hS1 hS2
    | unicodeString => exact osCollateUnicodeStringAt_reads hempty.1 hempty.2 hS1 hS2 hread
    | u64 => exact osCollateU64At_reads _ _ hS1 hS2
    | extent =>
      have hsize : operandSize .extent size = size := operandSize_of_extents (.inl rfl)
      exact osCollateExtentAt_reads fun p i hi => mem_Within i (by rwa [hsize])
    | extentMap =>
      have hsize : operandSize .extentMap size = size := operandSize_of_extents (.inr rfl)
      unfold operand at h
      rw [hsize] at h
      exact osCollateExtentMapAt_reads (fun p i hi => mem_Within i (by rwa [hsize])) h

theorem compareBytes_relates (n pos1 pos2 : ℕ) : Relates (· ⊆ ·) (compareBytes m n pos1 pos2) := by
  induction n generalizing pos1 pos2 with
  | zero => exact Relates.pure _
  | succ n ih =>
    unfold compareBytes
    refine (readCell_relates _ _).bind fun _ => (readCell_relates _ _).bind fun _ => ?_
    exact Relates.ite (Relates.pure _) (Relates.ite (Relates.pure _) (ih _ _))

theorem skipZeros_relates (p : Operand) (n pos : ℕ) : Relates (· ⊆ ·) (skipZeros m p n pos) := by
  induction n generalizing pos with
  | zero => exact (readCell_relates _ _).bind fun _ => Relates.pure _
  | succ n ih =>
    unfold skipZeros
    exact (readCell_relates _ _).bind fun _ => Relates.ite (ih _) (Relates.pure _)

/-- A key of zeros is read past its end. -/
theorem osCollateBinaryAt_touches {n1 n2 : ℕ} (hn1 : n1 ≠ 0) (hn2 : n2 ≠ 0)
    (h : ¬ ((∃ c ∈ slice m .key1 0 n1, c ≠ 0) ∧ ∃ c ∈ slice m .key2 0 n2, c ≠ 0)) :
    Touches (osCollateBinaryAt m n1 n2) (.byte .key1 n1) ∨ Touches (osCollateBinaryAt m n1 n2) (.byte .key2 n2) := by
  have hassert : Reads (assertSizes n1 n2) Set.univ (.ok ()) := assertSizes_reads hn1 hn2
  have hend : ∀ x y : ℕ × ℕ, Relates (· ⊆ ·) (if x.2 > y.2 then (return 1 : ReadM ℤ) else
      if x.2 < y.2 then return -1 else compareBytes m x.2 x.1 y.1) := fun x y =>
    Relates.ite (Relates.pure _) (Relates.ite (Relates.pure _) (compareBytes_relates _ _ _))
  by_cases h1 : ∃ c ∈ slice m .key1 0 n1, c ≠ 0
  · have h2 : ∀ c ∈ slice m .key2 0 n2, c = 0 := by
      intro c hc
      by_contra hne
      exact h ⟨h1, c, hc, hne⟩
    obtain ⟨pos1, k1, hreads, -, -⟩ := skipZeros_reads (S := Set.univ) 0 (fun _ _ => Set.mem_univ _) h1
    have htouch := skipZeros_touches 0 h2
    rw [Nat.zero_add] at htouch
    exact .inr (hassert.touches (hreads.touches (htouch.left fun y => hend (pos1, k1) y)))
  · have h1 : ∀ c ∈ slice m .key1 0 n1, c = 0 := by
      intro c hc
      by_contra hne
      exact h1 ⟨c, hc, hne⟩
    have htouch := skipZeros_touches 0 h1
    rw [Nat.zero_add] at htouch
    exact .inl (hassert.touches (htouch.left fun x => (skipZeros_relates _ _ _).bind fun y => hend x y))

/-- Keys without a difference are read past the end of the shorter one. -/
theorem osCollateUnicodeStringAt_touches {n1 n2 : ℕ} (hn1 : n1 ≠ 0) (hn2 : n2 ≠ 0)
    (h : ¬ ∃ j c1 c2, unicodeChar (slice m .key1 0 n1) j = .ok c1 ∧ unicodeChar (slice m .key2 0 n2) j = .ok c2 ∧
      osToUpper c1 ≠ osToUpper c2) :
    (∃ k ≥ n1, Touches (osCollateUnicodeStringAt m n1 n2) (.byte .key1 k)) ∨
      ∃ k ≥ n2, Touches (osCollateUnicodeStringAt m n1 n2) (.byte .key2 k) := by
  have hassert : Reads (assertSizes n1 n2) Set.univ (.ok ()) := assertSizes_reads hn1 hn2
  have heq : ∀ j, 2 * j + 1 < n1 → 2 * j + 1 < n2 → upperAt m .key1 j = upperAt m .key2 j := by
    intro j hj1 hj2
    by_contra hne
    exact h ⟨j, _, _, unicodeChar_slice hj1, unicodeChar_slice hj2, hne⟩
  rcases compareUnicode_touches n1 n2 0 (Nat.zero_add _) (Nat.zero_add _) (Nat.pos_of_ne_zero hn1)
    (Nat.pos_of_ne_zero hn2) heq with ⟨k, hk, ht⟩ | ⟨k, hk, ht⟩
  · exact .inl ⟨k, hk, hassert.touches ht⟩
  · exact .inr ⟨k, hk, hassert.touches ht⟩

/-- An address that was left unset is read from the stack. -/
theorem osCollateExtentMapAt_touches {va1 va2 len1 len2 : ℕ} {pa1 pa2 : Option ℕ}
    (hva1 : osBstrToU64 (slice m .key1 0 (size .key1)) = .ok va1)
    (hva2 : osBstrToU64 (slice m .key2 0 (size .key2)) = .ok va2)
    (he1 : osExtentPairToExtent (slice m .value1 0 (size .value1)) = .ok (len1, pa1))
    (he2 : osExtentPairToExtent (slice m .value2 0 (size .value2)) = .ok (len2, pa2))
    (hafter : va1 < (va2 + len2) % 2 ^ 64) (hbefore : va2 < (va1 + len1) % 2 ^ 64) (h : ¬ (pa1 ≠ none ∧ pa2 ≠ none)) :
    Touches (osCollateExtentMapAt m size) .pa1 ∨ Touches (osCollateExtentMapAt m size) .pa2 := by
  have hpos : ∀ {p e}, osExtentPairToExtent (slice m p 0 (size p)) = .ok e → size p ≠ 0 := by
    intro p e he h0
    rw [h0] at he
    cases he
  have hnum : ∀ p, Reads (osBstrToU64At m p 0 (size p)) Set.univ (osBstrToU64 (slice m p 0 (size p))) := fun p =>
    osBstrToU64At_reads 0 fun _ _ => Set.mem_univ _
  have hpair : ∀ {p e}, osExtentPairToExtent (slice m p 0 (size p)) = .ok e →
      Reads (osExtentPairToExtentAt m p (size p)) Set.univ (.ok e) := by
    intro p e he
    rw [← he]
    exact osExtentPairToExtentAt_reads (Nat.pos_of_ne_zero (hpos he)) fun _ _ => Set.mem_univ _
  have hstack : ∀ c stack pa, Relates (· ⊆ ·) (readPa c stack pa) := by
    intro c stack pa
    cases pa with
    | none => exact readCell_relates _ _
    | some pa => exact Relates.pure _
  -- both variants come to the comparison of the addresses
  have hreach : ∀ {c}, Touches (do
      let pa1 ← readPa .pa1 m.pa1 pa1
      let pa2 ← readPa .pa2 m.pa2 pa2
      if pa1 ≥ (pa2 + len2) % 2 ^ 64 then return 1
      else if (pa1 + len1) % 2 ^ 64 ≤ pa2 then return -1
      else return (0 : ℤ)) c → Touches (osCollateExtentMapAt m size) c := by
    intro c hc
    unfold osCollateExtentMapAt
    rw [if_neg (not_or.mpr ⟨hpos he2, hpos he1⟩)]
    refine Reads.touches (hva1 ▸ hnum .key1) (Reads.touches (hva2 ▸ hnum .key2) ?_)
    refine Reads.touches (hpair he1) (Reads.touches (hpair he2) ?_)
    dsimp only
    rw [if_neg (not_le.mpr hafter), if_neg (not_le.mpr hbefore)]
    exact hc
  have hend : ∀ a1 a2 : ℕ, Relates (· ⊆ ·) (if a1 ≥ (a2 + len2) % 2 ^ 64 then (return 1 : ReadM ℤ)
      else if (a1 + len1) % 2 ^ 64 ≤ a2 then return -1 else return 0) := fun a1 a2 =>
    Relates.ite (Relates.pure _) (Relates.ite (Relates.pure _) (Relates.pure _))
  cases pa1 with
  | none =>
    refine .inl (hreach ?_)
    exact (readCell_touches _ _).left fun a1 => (hstack _ _ _).bind fun a2 => hend a1 a2
  | some pa1 =>
    have hpa2 : pa2 = none := by simpa using h
    subst hpa2
    refine .inr (hreach (Reads.touches (S := Set.univ) (Reads.pure pa1) ?_))
    exact (readCell_touches _ _).left fun a2 => hend pa1 a2

/-- Where the condition fails, a cell outside the operands is read. -/
theorem collateKeyAt_touches (h : ¬ ReadsOperands cr (operand m cr size)) :
    ∃ c ∉ Within cr size, Touches (collateKeyAt m cr size) c := by
  have houtside : ∀ {p k}, operandSize cr size p ≤ k → Cell.byte p k ∉ Within cr size := by
    rintro p k hk ⟨p', i, hi, heq⟩
    cases heq
    omega
  unfold ReadsOperands at h
  rw [not_or, not_or] at h
  obtain ⟨hne1, hne2, h⟩ := h
  have hn1 : size .key1 ≠ 0 := fun h0 => hne1 (slice_eq_nil.mpr h0)
  have hn2 : size .key2 ≠ 0 := fun h0 => hne2 (slice_eq_nil.mpr h0)
  unfold collateKeyAt
  rw [if_neg hn2]
  cases cr with
  | binary =>
    rcases osCollateBinaryAt_touches hn1 hn2 h with ht | ht
    · exact ⟨_, houtside le_rfl, ht⟩
    · exact ⟨_, houtside le_rfl, ht⟩
  | unicodeString =>
    rcases osCollateUnicodeStringAt_touches hn1 hn2 h with ⟨k, hk, ht⟩ | ⟨k, hk, ht⟩
    · exact ⟨_, houtside hk, ht⟩
    · exact ⟨_, houtside hk, ht⟩
  | extentMap =>
    have hsize : operandSize .extentMap size = size := operandSize_of_extents (.inr rfl)
    unfold operand at h
    rw [hsize] at h
    push Not at h
    obtain ⟨va1, va2, len1, len2, pa1, pa2, hva1, hva2, he1, he2, hafter, hbefore, hpa⟩ := h
    have hunset : ¬ (pa1 ≠ none ∧ pa2 ≠ none) := fun hset => hset.2 (hpa hset.1)
    rcases osCollateExtentMapAt_touches hva1 hva2 he1 he2 hafter hbefore hunset with ht | ht
    · refine ⟨.pa1, ?_, ht⟩
      rintro ⟨p, i, -, heq⟩
      cases heq
    · refine ⟨.pa2, ?_, ht⟩
      rintro ⟨p, i, -, heq⟩
      cases heq
  | ansiString => exact absurd trivial h
  | u64 => exact absurd trivial h
  | extent => exact absurd trivial h

/-- Values count under the two rules for extents only. -/
theorem collateKey_congr {ie ie' : IndexEntry} {key value value' : Bytes} (hkey : ie.key = ie'.key)
    (hvalue : cr = .extent ∨ cr = .extentMap → ie.value = ie'.value ∧ value = value') :
    collateKey cr ie key value = collateKey cr ie' key value' := by
  unfold collateKey
  rw [hkey]
  cases cr with
  | binary => rfl
  | ansiString => rfl
  | unicodeString => rfl
  | u64 => rfl
  | extent => rw [(hvalue (.inl rfl)).1, (hvalue (.inl rfl)).2]
  | extentMap => rw [(hvalue (.inr rfl)).1, (hvalue (.inr rfl)).2]

/-- The comparison is local exactly where no byte beside the operands decides how far it reads. -/
theorem collate_local_exact (m : Memory) (cr : CollateRule) (size : Sizes) :
    Local cr size m ↔ ReadsOperands cr (operand m cr size) := by
  constructor
  · intro hlocal
    by_contra h
    obtain ⟨c, hc, ht⟩ := collateKeyAt_touches h
    exact hc (hlocal.1 c ht.mem)
  · intro h
    have hreads : ∀ m', ReadsOperands cr (operand m' cr size) → Reads (collateKeyAt m' cr size) (Within cr size)
        (collateKey cr ⟨0, 0, slice m' .key1 0 (size .key1), slice m' .value1 0 (size .value1), 0, false, false, false⟩
          (slice m' .key2 0 (size .key2)) (slice m' .value2 0 (size .value2))) := fun m' =>
      collateKeyAt_reads ⟨rfl, rfl, rfl, rfl⟩
    refine ⟨(hreads m h).mem, fun m' hagree => ?_⟩
    have hcongr := operand_congr hagree
    rw [(hreads m h).resultOf_eq, (hreads m' (hcongr ▸ h)).resultOf_eq]
    have hkey1 : slice m .key1 0 (size .key1) = slice m' .key1 0 (size .key1) := congrFun hcongr .key1
    have hkey2 : slice m .key2 0 (size .key2) = slice m' .key2 0 (size .key2) := congrFun hcongr .key2
    rw [hkey2]
    refine collateKey_congr hkey1.symm fun hcr => ?_
    unfold operand at hcongr
    rw [operandSize_of_extents hcr] at hcongr
    exact ⟨(congrFun hcongr .value1).symm, (congrFun hcongr .value2).symm⟩

/-- A key of one zero is read past its end; two strings `a` are told apart by the bytes behind them; and
a pair without a length is compared by what is on the stack. -/
theorem collate_beside_operands :
    Cell.byte .key1 1 ∈ readsOf (collateKeyAt ⟨fun _ _ => 0, 0, 0⟩ .binary fun _ => 1) ∧
    (∃ m m', Agree .unicodeString (fun _ => 1) m m' ∧
      resultOf (collateKeyAt m .unicodeString fun _ => 1) = .ok 0 ∧
      resultOf (collateKeyAt m' .unicodeString fun _ => 1) = .ok 1) ∧
    ∃ m m' size, Agree .extentMap size m m' ∧ slice m .value1 0 (size .value1) = [8] ∧
      resultOf (collateKeyAt m .extentMap size) = .ok (-1) ∧ resultOf (collateKeyAt m' .extentMap size) = .ok 1 := by
  refine ⟨by decide, ⟨⟨fun _ _ => 97, 0, 0⟩, ⟨fun p i => if p = .key1 ∧ i = 1 then 98 else 97, 0, 0⟩, ?_, rfl, rfl⟩, ?_⟩
  · intro p i hi
    have hi : i < 1 := by cases p <;> simp_all [operandSize]
    simp only [Nat.lt_one_iff.mp hi]
    simp
  · -- `8` of a pair, at `5`, against `[0, 9)` mapped to `[0, 9)`
    let byte : Operand → ℕ → UInt8 := fun p i => match p, i with
      | .key1, 0 => 5
      | .value1, 0 => 8
      | .value2, 0 => 1
      | .value2, 2 => 9
      | _, _ => 0
    let size : Sizes := fun p => if p = .value2 then 3 else 1
    exact ⟨⟨byte, 0, 0⟩, ⟨byte, 9, 0⟩, size, fun _ _ _ => rfl, rfl, rfl, rfl⟩

end Locality

end IndexFs.Collate
