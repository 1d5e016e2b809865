import IndexFs.Collate.Bstr
import Mathlib.Data.List.Lex

/-!
# Collation rules

The comparison functions of `object_system/ofs_collate.c` (lines 60–452). A
comparison returns `1`, `-1` or `0`; a failing `ASSERT` and a read outside the
operands are errors.

Results:

* `collateKey_eq_ord`: on keys it can decode, each of `CR_BINARY`,
  `CR_ANSI_STRING` and `CR_U64` compares ranks in one linear order.
* `osCollateExtent_bstr`: `CR_EXTENT` on encoded extents compares intervals
  (with the `uint64_t` sum the code computes).
-/

namespace IndexFs.Collate

/-- `collate_rule_t`. -/
inductive CollateRule
  | binary
  | ansiString
  | unicodeString
  | u64
  | extent
  | extentMap
  deriving DecidableEq, Repr

/-- The comparison that ends each rule: `1` if `a > b`, `-1` if `a < b`, else `0`. -/
def collateOrd {α : Type} [LT α] [DecidableLT α] (a b : α) : ℤ :=
  if b < a then 1 else if a < b then -1 else 0

/-- The loop of `os_collate_ansi_string` (lines 178–206) over two strings whose
characters compare by `c`. On strings of one length it is also the loop of
`os_collate_binary` (lines 100–115). -/
def collateLoop (c : UInt8 → ℤ) : Bytes → Bytes → ℤ
  | c1 :: s1, c2 :: s2 =>
    if c c2 < c c1 then 1 else if c c1 < c c2 then -1 else collateLoop c s1 s2
  | _ :: _, [] => 1
  | [], _ :: _ => -1
  | [], [] => 0

/-- `ASSERT(b1_size > 0); ASSERT(b2_size > 0);` -/
def assertNonempty (b1 b2 : Bytes) : Except ErrorCode Unit :=
  if b1 = [] ∨ b2 = [] then .error .assertion else .ok ()

/-- `os_collate_binary` (lines 66–118): leading zeros are skipped, then the longer
operand is the larger one. -/
def osCollateBinary (b1 b2 : Bytes) : Except ErrorCode ℤ := do
  assertNonempty b1 b2
  let b1 := b1.dropWhile (· == 0)
  let b2 := b2.dropWhile (· == 0)
  if b1.length > b2.length then return 1
  if b1.length < b2.length then return -1
  return collateLoop (fun c => (c.toNat : ℤ)) b1 b2

/-- `os_to_upper` in the C locale. -/
def osToUpper (c : ℤ) : ℤ := if c ≤ 122 ∧ 97 ≤ c then c - 32 else c

/-- A byte read as a `char`, which is signed. -/
def toChar (c : UInt8) : ℤ := if c.toNat < 128 then c.toNat else (c.toNat : ℤ) - 256

/-- `os_collate_ansi_string` (lines 169–206). -/
def osCollateAnsiString (s1 s2 : Bytes) : Except ErrorCode ℤ := do
  assertNonempty s1 s2
  return collateLoop (fun c => osToUpper (toChar c)) s1 s2

/-- The 16-bit character at index `i`; past the end of the operand it is not ours to read. -/
def unicodeChar (s : Bytes) (i : ℕ) : Except ErrorCode ℤ :=
  match s[2 * i]?, s[2 * i + 1]? with
  | some lo, some hi => .ok (lo.toNat + 256 * hi.toNat)
  | _, _ => .error .memory

/-- The loop of `os_collate_unicode_string` (lines 137–154): `n` characters from
index `i` on. -/
def collateUnicodeLoop (s1 s2 : Bytes) : (n i : ℕ) → Except ErrorCode ℤ
  | 0, _ => .ok 0
  | n + 1, i => do
    let c1 := osToUpper (← unicodeChar s1 i)
    let c2 := osToUpper (← unicodeChar s2 i)
    if c1 > c2 then return 1
    if c1 < c2 then return -1
    collateUnicodeLoop s1 s2 n (i + 1)

/-- `os_collate_unicode_string` (lines 126–167). `collate_key` passes it the sizes
in bytes, which it uses as numbers of 16-bit characters. -/
def osCollateUnicodeString (s1 s2 : Bytes) : Except ErrorCode ℤ := do
  assertNonempty s1 s2
  let r ← collateUnicodeLoop s1 s2 (min s1.length s2.length) 0
  if r ≠ 0 then return r
  if s1.length > s2.length then return 1
  if s1.length < s2.length then return -1
  return 0

/-- `os_collate_u64` (lines 283–300). -/
def osCollateU64 (b1 b2 : Bytes) : Except ErrorCode ℤ := do
  let u64_1 ← osBstrToU64 b1
  let u64_2 ← osBstrToU64 b2
  return collateOrd u64_1 u64_2

/-- `os_collate_extent` (lines 340–370); the sums are `uint64_t`. -/
def osCollateExtent (k1 v1 k2 v2 : Bytes) : Except ErrorCode ℤ := do
  if v2 = [] ∨ v1 = [] then osCollateU64 k1 k2
  else
    let addr1 ← osBstrToU64 k1
    let addr2 ← osBstrToU64 k2
    let len1 ← osBstrToU64 v1
    let len2 ← osBstrToU64 v2
    if addr1 ≥ (addr2 + len2) % 2 ^ 64 then return 1
    if (addr1 + len1) % 2 ^ 64 ≤ addr2 then return -1
    return 0

/-- `os_extent_pair_to_extent` (lines 317–330): the length, and the address unless
the pair is too short, in which case `*pa` is left unset. -/
def osExtentPairToExtent (extPair : Bytes) : Except ErrorCode (ℕ × Option ℕ) :=
  match extPair with
  | [] => .error .memory
  | paSize :: rest =>
    if extPair.length ≤ paSize.toNat + 1 then .ok (0, none)
    else do
      let pa ← osBstrToU64 (rest.take paSize.toNat)
      let len ← osBstrToU64 (rest.drop paSize.toNat)
      return (len, some pa)

/-- Comparing an address that was never set reads an indeterminate value. -/
def setAddress : Option ℕ → Except ErrorCode ℕ
  | some pa => .ok pa
  | none => .error .memory

/-- `os_collate_extent_map` (lines 378–418). -/
def osCollateExtentMap (k1 v1 k2 v2 : Bytes) : Except ErrorCode ℤ := do
  if v2 = [] ∨ v1 = [] then osCollateU64 k1 k2
  else
    let va1 ← osBstrToU64 k1
    let va2 ← osBstrToU64 k2
    let (len1, pa1) ← osExtentPairToExtent v1
    let (len2, pa2) ← osExtentPairToExtent v2
    if va1 ≥ (va2 + len2) % 2 ^ 64 then return 1
    if (va1 + len1) % 2 ^ 64 ≤ va2 then return -1
    let pa1 ← setAddress pa1
    let pa2 ← setAddress pa2
    if pa1 ≥ (pa2 + len2) % 2 ^ 64 then return 1
    if (pa1 + len1) % 2 ^ 64 ≤ pa2 then return -1
    return 0

/-- `collate_key` (lines 421–451). A rule is one of the six, so the
`-INDEX_ERR_COLLATE` after the `switch` is never reached. -/
def collateKey (cr : CollateRule) (ie : IndexEntry) (key value : Bytes) : Except ErrorCode ℤ :=
  if key = [] then .error .assertion
  else match cr with
    | .binary => osCollateBinary ie.key key
    | .ansiString => osCollateAnsiString ie.key key
    | .unicodeString => osCollateUnicodeString ie.key key
    | .u64 => osCollateU64 ie.key key
    | .extent => osCollateExtent ie.key ie.value key value
    | .extentMap => osCollateExtentMap ie.key ie.value key value

/-! ## `collateOrd` is a comparison -/

section Ord

variable {α : Type} [LinearOrder α] [DecidableLT α] {a b : α}

@[simp] theorem collateOrd_pos : 0 < collateOrd a b ↔ b < a := by
  unfold collateOrd
  split_ifs with h1 h2
  · simp [h1]
  · simp [h1]
  · simp [h1]

@[simp] theorem collateOrd_neg : collateOrd a b < 0 ↔ a < b := by
  unfold collateOrd
  split_ifs with h1 h2
  · simp [h1.le]
  · simp [h2]
  · simp [h2]

@[simp] theorem collateOrd_eq_zero : collateOrd a b = 0 ↔ a = b := by
  unfold collateOrd
  split_ifs with h1 h2
  · simp [h1.ne']
  · simp [h2.ne]
  · simp [le_antisymm (not_lt.mp h1) (not_lt.mp h2)]

end Ord

/-- The loop compares the strings of character values lexicographically. -/
theorem collateLoop_eq_ord (c : UInt8 → ℤ) (s1 s2 : Bytes) :
    collateLoop c s1 s2 = collateOrd (s1.map c) (s2.map c) := by
  induction s1 generalizing s2 with
  | nil => cases s2 <;> simp [collateLoop, collateOrd]
  | cons c1 s1 ih =>
    cases s2 with
    | nil => simp [collateLoop, collateOrd]
    | cons c2 s2 =>
      simp only [collateLoop, ih, collateOrd, List.map_cons, List.cons_lt_cons_iff]
      rcases lt_trichotomy (c c1) (c c2) with h | h | h
      · simp [h, h.not_gt, h.ne']
      · simp [h]
      · simp [h]

/-! ## The three ranked rules -/

/-- The rules whose comparison looks at the keys only and orders them by a rank. -/
def CollateRule.Ranked (cr : CollateRule) : Prop := cr = .binary ∨ cr = .ansiString ∨ cr = .u64

/-- The keys a ranked rule can compare: `os_bstr_to_u64` asserts a size of at most 8. -/
def Collatable (cr : CollateRule) (key : Bytes) : Prop :=
  key ≠ [] ∧ (cr = .u64 → key.length ≤ 8)

/-- What a ranked rule compares, as a list under the lexicographic order. -/
def collateRank (cr : CollateRule) (key : Bytes) : List ℤ :=
  match cr with
  | .binary =>
    let b := key.dropWhile (· == 0)
    (b.length : ℤ) :: b.map fun c => (c.toNat : ℤ)
  | .ansiString => key.map fun c => osToUpper (toChar c)
  | .u64 => [((Nat.ofDigits 256 (key.map UInt8.toNat) : ℕ) : ℤ)]
  | _ => []

theorem assertNonempty_ok {b1 b2 : Bytes} (h1 : b1 ≠ []) (h2 : b2 ≠ []) :
    assertNonempty b1 b2 = .ok () := if_neg (by simp [h1, h2])

theorem osCollateBinary_eq_ord {b1 b2 : Bytes} (h1 : b1 ≠ []) (h2 : b2 ≠ []) :
    osCollateBinary b1 b2 = .ok (collateOrd (collateRank .binary b1) (collateRank .binary b2)) := by
  unfold osCollateBinary
  rw [assertNonempty_ok h1 h2]
  simp only [bind, Except.bind, collateRank, collateLoop_eq_ord]
  set d1 := b1.dropWhile (· == 0)
  set d2 := b2.dropWhile (· == 0)
  rcases lt_trichotomy d1.length d2.length with h | h | h
  · simp [collateOrd, h, h.not_gt, h.ne', List.cons_lt_cons_iff, pure, Except.pure]
  · simp [collateOrd, h, pure, Except.pure]
  · simp [collateOrd, h, List.cons_lt_cons_iff, pure, Except.pure]

theorem osCollateU64_eq_ord {b1 b2 : Bytes} (h1 : Collatable .u64 b1) (h2 : Collatable .u64 b2) :
    osCollateU64 b1 b2 = .ok (collateOrd (collateRank .u64 b1) (collateRank .u64 b2)) := by
  have hpos : ∀ {b : Bytes}, Collatable .u64 b → 1 ≤ b.length := fun h =>
    List.length_pos_iff.mpr h.1
  unfold osCollateU64
  rw [osBstrToU64_ok (hpos h1) (h1.2 rfl), osBstrToU64_ok (hpos h2) (h2.2 rfl)]
  simp [bind, Except.bind, pure, Except.pure, collateOrd, collateRank, List.cons_lt_cons_iff]

/-- Each ranked rule compares ranks. -/
theorem collateKey_eq_ord {cr : CollateRule} (hcr : cr.Ranked) {ie : IndexEntry} {key value : Bytes}
    (hie : Collatable cr ie.key) (hkey : Collatable cr key) :
    collateKey cr ie key value = .ok (collateOrd (collateRank cr ie.key) (collateRank cr key)) := by
  unfold collateKey
  rw [if_neg hkey.1]
  rcases hcr with rfl | rfl | rfl
  · exact osCollateBinary_eq_ord hie.1 hkey.1
  · simp only [osCollateAnsiString, assertNonempty_ok hie.1 hkey.1, collateLoop_eq_ord]
    rfl
  · exact osCollateU64_eq_ord hie hkey

/-! ## Encoded extents -/

/-- `CR_EXTENT` on the encodings of two extents. -/
theorem osCollateExtent_bstr {a1 l1 a2 l2 : ℕ} (ha1 : a1 < 2 ^ 64) (hl1 : l1 < 2 ^ 64)
    (ha2 : a2 < 2 ^ 64) (hl2 : l2 < 2 ^ 64) :
    osCollateExtent (osU64ToBstr a1) (osU64ToBstr l1) (osU64ToBstr a2) (osU64ToBstr l2) =
      .ok (if a1 ≥ (a2 + l2) % 2 ^ 64 then 1 else if (a1 + l1) % 2 ^ 64 ≤ a2 then -1 else 0) := by
  have hne : ∀ {x : ℕ}, x < 2 ^ 64 → osU64ToBstr x ≠ [] := fun h hnil => by
    have := (osU64ToBstr_length h).1
    simp [hnil] at this
  unfold osCollateExtent
  rw [if_neg (by simp [hne hl1, hne hl2])]
  simp only [osBstrToU64_osU64ToBstr ha1, osBstrToU64_osU64ToBstr ha2, osBstrToU64_osU64ToBstr hl1,
    osBstrToU64_osU64ToBstr hl2, bind, Except.bind]
  split_ifs <;> rfl

end IndexFs.Collate
