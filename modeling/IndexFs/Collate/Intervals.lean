import IndexFs.Collate.ExtentPair
import IndexFs.Lib.Comparison

/-!
# Extents and extent maps

`os_collate_extent` and `os_collate_extent_map` of `object_system/ofs_collate.c`
(lines 336–409) on any byte strings that decode, whether or not they are shortest
encodings.

Results:

* `osCollateExtent_exact`: `CR_EXTENT` compares intervals of natural numbers, exactly
  if the 64-bit sums that overflow do no harm.
* `osCollateExtent_last_block`: the last block of the address space, compared with itself.
* `extentMap_order_exact`: `CR_EXTENT_MAP` orders a set of mappings, none of which
  compare equal, exactly if no mapping lies across two others virtually and between
  them, in the other order, physically.
* `extentMap_circle`: three mappings in a circle.
-/

namespace IndexFs.Collate

/-! ## `CR_EXTENT` -/

/-- The result `r` says how `[a1, a1 + l1)` lies to `[a2, a2 + l2)`. -/
def ComparesIntervals (a1 l1 a2 l2 : ℕ) (r : ℤ) : Prop :=
  (r = 0 ↔ (Set.Ico a1 (a1 + l1) ∩ Set.Ico a2 (a2 + l2)).Nonempty) ∧
    (r < 0 ↔ ∀ x ∈ Set.Ico a1 (a1 + l1), ∀ y ∈ Set.Ico a2 (a2 + l2), x < y) ∧
    (0 < r ↔ ∀ x ∈ Set.Ico a1 (a1 + l1), ∀ y ∈ Set.Ico a2 (a2 + l2), y < x)

/-- Both intervals end below `2^64`; or the end of one of them wraps round to an address that is still
on the right side of the other interval. -/
def OverflowHarmless (a1 l1 a2 l2 : ℕ) : Prop :=
  (a2 + l2 < 2 ^ 64 ∧ (a1 + l1 < 2 ^ 64 ∨ a2 + l2 ≤ a1 ∨ a2 + 2 ^ 64 < a1 + l1)) ∨
    (2 ^ 64 ≤ a2 + l2 ∧ a1 + 2 ^ 64 < a2 + l2 ∧ a1 + l1 < 2 ^ 64)

section Intervals

variable {a1 l1 a2 l2 : ℕ} {r : ℤ}

/-- Two nonempty intervals meet, or one ends before the other starts. -/
theorem comparesIntervals_iff (h1 : 1 ≤ l1) (h2 : 1 ≤ l2) : ComparesIntervals a1 l1 a2 l2 r ↔
    (r = 0 ↔ a1 < a2 + l2 ∧ a2 < a1 + l1) ∧ (r < 0 ↔ a1 + l1 ≤ a2) ∧ (0 < r ↔ a2 + l2 ≤ a1) := by
  have hmeet : (Set.Ico a1 (a1 + l1) ∩ Set.Ico a2 (a2 + l2)).Nonempty ↔ a1 < a2 + l2 ∧ a2 < a1 + l1 := by
    rw [Set.Ico_inter_Ico, Set.nonempty_Ico, sup_lt_iff, lt_inf_iff, lt_inf_iff]
    omega
  have hbefore : (∀ x ∈ Set.Ico a1 (a1 + l1), ∀ y ∈ Set.Ico a2 (a2 + l2), x < y) ↔ a1 + l1 ≤ a2 := by
    simp only [Set.mem_Ico]
    constructor
    · intro h
      have := h (a1 + l1 - 1) (by omega) a2 (by omega)
      omega
    · intro h x hx y hy
      omega
  have hafter : (∀ x ∈ Set.Ico a1 (a1 + l1), ∀ y ∈ Set.Ico a2 (a2 + l2), y < x) ↔ a2 + l2 ≤ a1 := by
    simp only [Set.mem_Ico]
    constructor
    · intro h
      have := h a1 (by omega) (a2 + l2 - 1) (by omega)
      omega
    · intro h x hx y hy
      omega
  unfold ComparesIntervals
  rw [hmeet, hbefore, hafter]

end Intervals

section Extent

variable {k1 v1 k2 v2 : Bytes} {a1 l1 a2 l2 : ℕ}

theorem osCollateExtent_ok (hk1 : osBstrToU64 k1 = .ok a1) (hv1 : osBstrToU64 v1 = .ok l1)
    (hk2 : osBstrToU64 k2 = .ok a2) (hv2 : osBstrToU64 v2 = .ok l2) :
    osCollateExtent k1 v1 k2 v2 =
      .ok (if a1 ≥ (a2 + l2) % 2 ^ 64 then 1 else if (a1 + l1) % 2 ^ 64 ≤ a2 then -1 else 0) := by
  unfold osCollateExtent
  rw [if_neg (not_or.mpr ⟨ne_nil_of_osBstrToU64 hv2, ne_nil_of_osBstrToU64 hv1⟩), hk1, hv1, hk2, hv2]
  simp only [bind, Except.bind]
  split_ifs <;> rfl

/-- `CR_EXTENT` says how the two intervals lie exactly if no overflow does harm. -/
theorem osCollateExtent_exact (hk1 : osBstrToU64 k1 = .ok a1) (hv1 : osBstrToU64 v1 = .ok l1)
    (hk2 : osBstrToU64 k2 = .ok a2) (hv2 : osBstrToU64 v2 = .ok l2) (h1 : 1 ≤ l1) (h2 : 1 ≤ l2) :
    (∃ r, osCollateExtent k1 v1 k2 v2 = .ok r ∧ ComparesIntervals a1 l1 a2 l2 r) ↔
      OverflowHarmless a1 l1 a2 l2 := by
  have ha1 := (osBstrToU64_lt hk1).2
  have ha2 := (osBstrToU64_lt hk2).2
  have hl1 := (osBstrToU64_lt hv1).2
  have hl2 := (osBstrToU64_lt hv2).2
  rw [osCollateExtent_ok hk1 hv1 hk2 hv2]
  simp only [Except.ok.injEq, exists_eq_left', comparesIntervals_iff h1 h2, OverflowHarmless]
  -- whichever sum overflows, the remainder is the sum less `2^64`
  split_ifs with hafter hbefore
  · simp only [one_ne_zero, false_iff, not_and, not_lt, Int.reduceLT, not_le, zero_lt_one, true_iff]
    omega
  · simp only [false_iff, not_and, not_lt, Int.reduceNeg, Int.reduceLT, true_iff,
      not_le]
    omega
  · simp only [true_iff, lt_self_iff_false, false_iff, not_le]
    omega

theorem osCollateExtent_exact_beside :
    (∃ r, osCollateExtent [4] [6] [8] [13] = .ok r ∧ ComparesIntervals 4 6 8 13 r) ↔
      OverflowHarmless 4 6 8 13 :=
  osCollateExtent_exact rfl rfl rfl rfl (by decide) (by decide)

end Extent

/-- The last block of the address space lies behind itself. -/
theorem osCollateExtent_last_block :
    osBstrToU64 [255, 255, 255, 255, 255, 255, 255, 255] = .ok (2 ^ 64 - 1) ∧
      osCollateExtent [255, 255, 255, 255, 255, 255, 255, 255] [1]
        [255, 255, 255, 255, 255, 255, 255, 255] [1] = .ok 1 ∧
      ¬ ComparesIntervals (2 ^ 64 - 1) 1 (2 ^ 64 - 1) 1 1 := by
  refine ⟨rfl, rfl, fun h => ?_⟩
  rw [comparesIntervals_iff le_rfl le_rfl] at h
  exact absurd (h.2.2.mp one_pos) (by norm_num)

/-! ## `CR_EXTENT_MAP` -/

/-- The virtual address, the physical address and the length of a mapping. -/
structure Mapping where
  va : ℕ
  pa : ℕ
  len : ℕ

/-- The entry `kv` is the mapping `e`: any byte strings that decode to it, with a length, and neither
interval reaches `2^64`. -/
structure Encodes (kv : Bytes × Bytes) (e : Mapping) : Prop where
  key : osBstrToU64 kv.1 = .ok e.va
  value : osExtentPairToExtent kv.2 = .ok (e.len, some e.pa)
  len : 1 ≤ e.len
  va_lt : e.va + e.len < 2 ^ 64
  pa_lt : e.pa + e.len < 2 ^ 64

/-- The virtual interval of `e` ends before that of `f` starts. -/
def Mapping.VirtBefore (e f : Mapping) : Prop := e.va + e.len ≤ f.va

/-- The physical interval of `e` ends before that of `f` starts. -/
def Mapping.PhysBefore (e f : Mapping) : Prop := e.pa + e.len ≤ f.pa

/-- The virtual intervals share an address. -/
def Mapping.VirtMeets (e f : Mapping) : Prop := f.va < e.va + e.len ∧ e.va < f.va + f.len

/-- `os_collate_extent_map` on two entries. -/
def collateMaps (kv1 kv2 : Bytes × Bytes) : Except ErrorCode ℤ :=
  osCollateExtentMap kv1.1 kv1.2 kv2.1 kv2.2

/-- The first entry compares smaller. -/
def MapLt (kv1 kv2 : Bytes × Bytes) : Prop := ∃ r < 0, collateMaps kv1 kv2 = .ok r

section Maps

variable {kv1 kv2 : Bytes × Bytes} {e f : Mapping}

theorem collateMaps_ok (he : Encodes kv1 e) (hf : Encodes kv2 f) :
    collateMaps kv1 kv2 =
      .ok (if f.va + f.len ≤ e.va then 1 else if e.va + e.len ≤ f.va then -1
        else if f.pa + f.len ≤ e.pa then 1 else if e.pa + e.len ≤ f.pa then -1 else 0) := by
  have hne : ∀ {kv : Bytes × Bytes} {g : Mapping}, Encodes kv g → kv.2 ≠ [] := by
    intro kv g hg hnil
    have hvalue := hg.value
    rw [hnil] at hvalue
    cases hvalue
  unfold collateMaps osCollateExtentMap
  rw [if_neg (not_or.mpr ⟨hne hf, hne he⟩), he.key, hf.key, he.value, hf.value]
  simp only [bind, Except.bind, setAddress, Nat.mod_eq_of_lt he.va_lt, Nat.mod_eq_of_lt hf.va_lt,
    Nat.mod_eq_of_lt he.pa_lt, Nat.mod_eq_of_lt hf.pa_lt]
  split_ifs <;> rfl

/-- Virtual addresses decide if the intervals are disjoint, else physical ones. -/
theorem mapLt_iff (he : Encodes kv1 e) (hf : Encodes kv2 f) :
    MapLt kv1 kv2 ↔ e.VirtBefore f ∨ e.VirtMeets f ∧ e.PhysBefore f := by
  have hlen := he.len
  have hlen' := hf.len
  unfold MapLt Mapping.VirtBefore Mapping.VirtMeets Mapping.PhysBefore
  rw [collateMaps_ok he hf]
  simp only [Except.ok.injEq]
  split_ifs with h1 h2 h3 h4
  · simp only [exists_eq_right', Int.reduceLT, false_iff]
    omega
  · simp only [exists_eq_right', Int.reduceNeg, Int.reduceLT, true_iff]
    omega
  · simp only [exists_eq_right', Int.reduceLT, false_iff]
    omega
  · simp only [exists_eq_right', Int.reduceNeg, Int.reduceLT, true_iff]
    omega
  · simp only [exists_eq_right', lt_self_iff_false, false_iff]
    omega

/-- Two mappings that do not compare equal compare one way or the other. -/
theorem mapLt_total (he : Encodes kv1 e) (hf : Encodes kv2 f) (hne : collateMaps kv1 kv2 ≠ .ok 0) :
    MapLt kv1 kv2 ∨ MapLt kv2 kv1 := by
  have hlen := he.len
  have hlen' := hf.len
  rw [mapLt_iff he hf, mapLt_iff hf he]
  rw [collateMaps_ok he hf, ne_eq, Except.ok.injEq] at hne
  unfold Mapping.VirtBefore Mapping.VirtMeets Mapping.PhysBefore
  split_ifs at hne <;> omega

theorem mapLt_asymm (he : Encodes kv1 e) (hf : Encodes kv2 f) (h : MapLt kv1 kv2) : ¬ MapLt kv2 kv1 := by
  have hlen := he.len
  have hlen' := hf.len
  rw [mapLt_iff he hf] at h
  rw [mapLt_iff hf he]
  unfold Mapping.VirtBefore Mapping.VirtMeets Mapping.PhysBefore at *
  omega

end Maps

/-- `f` lies across `e` and `g` virtually, `e` before `g`, and between them physically, `g` before `e`. -/
def Crosses (e f g : Mapping) : Prop :=
  e.VirtBefore g ∧ f.VirtMeets e ∧ f.VirtMeets g ∧ g.PhysBefore f ∧ f.PhysBefore e

/-- A circle of three mappings is a mapping that lies across two others. -/
theorem circle_iff {kv1 kv2 kv3 : Bytes × Bytes} {e f g : Mapping} (he : Encodes kv1 e) (hf : Encodes kv2 f)
    (hg : Encodes kv3 g) : MapLt kv1 kv2 ∧ MapLt kv2 kv3 ∧ MapLt kv3 kv1 ↔
      Crosses e g f ∨ Crosses f e g ∨ Crosses g f e := by
  have h1 := he.len
  have h2 := hf.len
  have h3 := hg.len
  rw [mapLt_iff he hf, mapLt_iff hf hg, mapLt_iff hg he]
  unfold Crosses Mapping.VirtBefore Mapping.VirtMeets Mapping.PhysBefore
  constructor
  · rintro ⟨h12 | ⟨m12, p12⟩, h23 | ⟨m23, p23⟩, h31 | ⟨m31, p31⟩⟩ <;> omega
  · omega

/-- On mappings none of which compare equal, `CR_EXTENT_MAP` is a strict total order exactly if no
mapping lies across two others virtually and between them, the other way round, physically. -/
theorem extentMap_order_exact (S : Finset (Bytes × Bytes)) (e : Bytes × Bytes → Mapping)
    (hS : ∀ kv ∈ S, Encodes kv (e kv))
    (hne : ∀ kv ∈ S, ∀ kv' ∈ S, kv ≠ kv' → collateMaps kv kv' ≠ .ok 0) :
    ((∀ kv ∈ S, ∀ kv' ∈ S, kv ≠ kv' → MapLt kv kv' ∨ MapLt kv' kv) ∧
      (∀ kv ∈ S, ∀ kv' ∈ S, MapLt kv kv' → ¬ MapLt kv' kv) ∧
      ∀ kv ∈ S, ∀ kv' ∈ S, ∀ kv'' ∈ S, MapLt kv kv' → MapLt kv' kv'' → MapLt kv kv'') ↔
    ∀ kv ∈ S, ∀ kv' ∈ S, ∀ kv'' ∈ S, ¬ Crosses (e kv) (e kv') (e kv'') := by
  have htour : Tournament (S : Set (Bytes × Bytes)) MapLt :=
    ⟨fun kv hkv kv' hkv' h => mapLt_total (hS kv hkv) (hS kv' hkv') (hne kv hkv kv' hkv' h),
      fun kv hkv kv' hkv' h => mapLt_asymm (hS kv hkv) (hS kv' hkv') h⟩
  have htrans := htour.transOn_iff
  simp only [Finset.mem_coe] at htrans
  rw [htrans]
  constructor
  · rintro ⟨-, -, hcircle⟩ kv hkv kv' hkv' kv'' hkv'' hcross
    exact hcircle ⟨kv, hkv, kv'', hkv'', kv', hkv',
      (circle_iff (hS kv hkv) (hS kv'' hkv'') (hS kv' hkv')).mpr (.inl hcross)⟩
  · intro hcross
    refine ⟨htour.total, htour.asymm, ?_⟩
    rintro ⟨kv, hkv, kv', hkv', kv'', hkv'', hcircle⟩
    rcases (circle_iff (hS kv hkv) (hS kv' hkv') (hS kv'' hkv'')).mp hcircle with h | h | h
    · exact hcross kv hkv kv'' hkv'' kv' hkv' h
    · exact hcross kv' hkv' kv hkv kv'' hkv'' h
    · exact hcross kv'' hkv'' kv' hkv' kv hkv h

/-- Blocks 0 to 9 at 100, blocks 5 to 14 at 50, and blocks 12 to 19 at 0. -/
def circleMaps : List ((Bytes × Bytes) × Mapping) :=
  [(([0], [1, 100, 10]), ⟨0, 100, 10⟩), (([5], [1, 50, 10]), ⟨5, 50, 10⟩),
    (([12], [1, 0, 8]), ⟨12, 0, 8⟩)]

theorem circleMaps_encodes : ∀ x ∈ circleMaps, Encodes x.1 x.2 := by
  intro x hx
  simp only [circleMaps, List.mem_cons, List.not_mem_nil, or_false] at hx
  rcases hx with rfl | rfl | rfl
  · exact ⟨rfl, rfl, by decide, by decide, by decide⟩
  · exact ⟨rfl, rfl, by decide, by decide, by decide⟩
  · exact ⟨rfl, rfl, by decide, by decide, by decide⟩

/-- The first two of them, which are in order. -/
theorem extentMap_order_exact_two :
    let S : Finset (Bytes × Bytes) := {([0], [1, 100, 10]), ([5], [1, 50, 10])}
    let e : Bytes × Bytes → Mapping := fun kv => if kv.1 = [0] then ⟨0, 100, 10⟩ else ⟨5, 50, 10⟩
    ((∀ kv ∈ S, ∀ kv' ∈ S, kv ≠ kv' → MapLt kv kv' ∨ MapLt kv' kv) ∧
      (∀ kv ∈ S, ∀ kv' ∈ S, MapLt kv kv' → ¬ MapLt kv' kv) ∧
      ∀ kv ∈ S, ∀ kv' ∈ S, ∀ kv'' ∈ S, MapLt kv kv' → MapLt kv' kv'' → MapLt kv kv'') ↔
    ∀ kv ∈ S, ∀ kv' ∈ S, ∀ kv'' ∈ S, ¬ Crosses (e kv) (e kv') (e kv'') := by
  refine extentMap_order_exact _ _ (fun kv hkv => ?_) (by decide)
  rcases Finset.mem_insert.mp hkv with rfl | hkv
  · exact circleMaps_encodes (([0], [1, 100, 10]), ⟨0, 100, 10⟩) (by simp [circleMaps])
  · obtain rfl := Finset.mem_singleton.mp hkv
    exact circleMaps_encodes (([5], [1, 50, 10]), ⟨5, 50, 10⟩) (by simp [circleMaps])

/-- The first compares smaller than the third, the third smaller than the second, and the second
smaller than the first. -/
theorem extentMap_circle :
    (∀ x ∈ circleMaps, Encodes x.1 x.2) ∧ (∀ x ∈ circleMaps, ∀ y ∈ circleMaps, x.1 ≠ y.1 →
        collateMaps x.1 y.1 ≠ .ok 0) ∧
      MapLt ([0], [1, 100, 10]) ([12], [1, 0, 8]) ∧ MapLt ([12], [1, 0, 8]) ([5], [1, 50, 10]) ∧
      ¬ MapLt ([0], [1, 100, 10]) ([5], [1, 50, 10]) := by
  refine ⟨circleMaps_encodes, by decide, ⟨-1, by decide, rfl⟩, ⟨-1, by decide, rfl⟩, ?_⟩
  rintro ⟨r, hr, h⟩
  have hone : collateMaps ([0], [1, 100, 10]) ([5], [1, 50, 10]) = .ok 1 := rfl
  rw [hone, Except.ok.injEq] at h
  omega

end IndexFs.Collate
