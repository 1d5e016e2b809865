import IndexFs.Space.ListTree

/-!
# Runs of the space manager

`sm_alloc_space` and `sm_free_space` keep a count of free blocks and a hint
beside the tree. A run is any sequence of calls, with frees of blocks that are
allocated at that moment; the set of allocated blocks is carried along.

Results:

* `smAllocSpace_spec`, `smFreeSpace_spec`: one call.
* `SmInv.run`: allocated and free blocks stay disjoint, together they stay the
  same, and `total_free_blocks` is the number of free blocks.
* `allocator_semantics`: the calls and the runs in one statement.
-/

namespace IndexFs.Space

open IndexFs.Collate

variable {τ : Type} {ops : TreeOps τ} {exts : τ → List (ℕ × ℕ)} {pos : τ → ℕ}

/-- Blocks `used` are allocated, those in the tree are free, and the counters agree. -/
structure SmInv (exts : τ → List (ℕ × ℕ)) (sm : SpaceManager τ) (used : Set ℕ) : Prop where
  free : FreeExtents (exts sm.spaceObj)
  total : sm.totalFreeBlocks = (covered (exts sm.spaceObj)).ncard
  hint : sm.firstFreeBlock < 2 ^ 64
  disjoint : Disjoint used (covered (exts sm.spaceObj))
  bounded : ∀ b ∈ used, b < 2 ^ 31

/-- One call of `sm_alloc_space` or `sm_free_space`, with the set of allocated
blocks before and after it. -/
inductive SmStep (ops : TreeOps τ) (fuel : ℕ) :
    SpaceManager τ × Set ℕ → SpaceManager τ × Set ℕ → Prop
  | alloc {sm sm' used cnt ret start} (h1 : 1 ≤ cnt) (h2 : cnt < 2 ^ 31)
      (h : smAllocSpace ops cnt sm = .ok (ret, start) sm') :
      SmStep ops fuel (sm, used) (sm', used ∪ Set.Ico start (start + ret.toNat))
  | allocFail {sm sm' used cnt e} (h1 : 1 ≤ cnt) (h2 : cnt < 2 ^ 31)
      (h : smAllocSpace ops cnt sm = .error e sm') : SmStep ops fuel (sm, used) (sm', used)
  | free {sm sm' used start cnt} (h1 : 1 ≤ cnt) (h2 : Set.Ico start (start + cnt) ⊆ used)
      (h : smFreeSpace ops fuel start cnt sm = .ok () sm') :
      SmStep ops fuel (sm, used) (sm', used \ Set.Ico start (start + cnt))
  | freeFail {sm sm' used start cnt e} (h1 : 1 ≤ cnt) (h2 : Set.Ico start (start + cnt) ⊆ used)
      (h : smFreeSpace ops fuel start cnt sm = .error e sm') : SmStep ops fuel (sm, used) (sm', used)

/-! ## One call -/

theorem FreeExtents.covered_bounded {l : List (ℕ × ℕ)} (h : FreeExtents l) :
    ∀ b ∈ covered l, b < 2 ^ 31 := by
  rintro b ⟨e, he, hb⟩
  have := h.bounded e he
  simp only [Set.mem_Ico] at hb
  omega

theorem FreeExtents.ncard_le {l : List (ℕ × ℕ)} (h : FreeExtents l) :
    (covered l).ncard ≤ 2 ^ 31 := by
  have hsub : covered l ⊆ Set.Ico 0 (0 + 2 ^ 31) := fun b hb =>
    ⟨Nat.zero_le b, by have := h.covered_bounded b hb; omega⟩
  calc (covered l).ncard ≤ (Set.Ico 0 (0 + 2 ^ 31)).ncard := Set.ncard_le_ncard hsub (Set.finite_Ico _ _)
    _ = 2 ^ 31 := ncard_Ico 0 _

/-- An allocation hands out free blocks and counts them; it fails only when nothing is free. -/
theorem smAllocSpace_spec (hm : OrderedMap ops exts pos) {sm : SpaceManager τ} {used : Set ℕ}
    {cnt : ℕ} (h : SmInv exts sm used) (h1 : 1 ≤ cnt) (h2 : cnt < 2 ^ 31) :
    Ends (smAllocSpace ops cnt) sm
      (fun r sm' => SmInv exts sm' (used ∪ Set.Ico r.2 (r.2 + r.1.toNat)) ∧
        Set.Ico r.2 (r.2 + r.1.toNat) ⊆ covered (exts sm.spaceObj) ∧
        covered (exts sm'.spaceObj) = covered (exts sm.spaceObj) \ Set.Ico r.2 (r.2 + r.1.toNat))
      (fun ret sm' => ret = .noFreeBlocks ∧ SmInv exts sm' used ∧ covered (exts sm.spaceObj) = ∅ ∧
        exts sm'.spaceObj = exts sm.spaceObj) := by
  unfold smAllocSpace
  refine Ends.bind ?_
  rw [ends_get]
  split_ifs with htotal
  · rw [ends_throw]
    have hempty : covered (exts sm.spaceObj) = ∅ := by
      rw [← Set.ncard_eq_zero (covered_finite _), ← h.total, htotal]
    exact ⟨rfl, h, hempty, rfl⟩
  · refine Ends.bind (Ends.codeOf (ends_zoom.mpr
      ((allocSpace_spec hm h.free h.hint h1 h2).mono ?ok ?fail)))
    case ok =>
      rintro ⟨ret, start⟩ t ⟨⟨n, hret, hn1, hn2⟩, ⟨e, he, hinside⟩, hfree, hcov⟩
      dsimp only at hret hinside hcov ⊢
      subst hret
      rw [if_neg (by omega)]
      refine Ends.bind ?_
      rw [ends_modify, ends_pure]
      simp only [Int.toNat_natCast] at hinside hcov ⊢
      have hsub : Set.Ico start (start + n) ⊆ covered (exts sm.spaceObj) :=
        fun b hb => ⟨e, he, hinside hb⟩
      have hcard : (covered (exts t)).ncard + n = sm.totalFreeBlocks := by
        rw [h.total, hcov, ← Set.ncard_sdiff_add_ncard_of_subset hsub (covered_finite _), ncard_Ico]
      have hbound := h.free.covered_bounded (start + n - 1) (hsub ⟨by omega, by omega⟩)
      refine ⟨⟨hfree, ?_, ?_, ?_, ?_⟩, hsub, hcov⟩
      · dsimp only
        rw [if_neg (by omega)]
        omega
      · exact Nat.mod_lt _ (by norm_num)
      · dsimp only
        rw [hcov, Set.disjoint_union_left]
        exact ⟨h.disjoint.mono_right Set.sdiff_subset, Set.disjoint_sdiff_right⟩
      · rintro b (hb | hb)
        · exact h.bounded b hb
        · exact h.free.covered_bounded b (hsub hb)
    case fail =>
      rintro ret t ⟨rfl, hnil, hext⟩
      refine ⟨rfl, ?_⟩
      dsimp only
      rw [if_pos rfl]
      refine Ends.bind ?_
      rw [ends_modify, ends_throw]
      have hnil' : exts t = [] := hext.trans hnil
      refine ⟨rfl, ⟨?_, ?_, ?_, ?_, h.bounded⟩, ?_, hext⟩
      · dsimp only
        rw [hext]
        exact h.free
      · simp [hnil']
      · norm_num
      · simp [hnil']
      · simp [hnil]

/-- Freeing allocated blocks succeeds, adds exactly them and counts them. -/
theorem smFreeSpace_spec (hm : OrderedMap ops exts pos) {fuel : ℕ} (hfuel : 2 ^ 31 < fuel)
    {sm : SpaceManager τ} {used : Set ℕ} {start cnt : ℕ} (h : SmInv exts sm used) (h1 : 1 ≤ cnt)
    (hused : Set.Ico start (start + cnt) ⊆ used) :
    Ends (smFreeSpace ops fuel start cnt) sm
      (fun _ sm' => SmInv exts sm' (used \ Set.Ico start (start + cnt)) ∧
        covered (exts sm'.spaceObj) = covered (exts sm.spaceObj) ∪ Set.Ico start (start + cnt))
      (fun _ _ => False) := by
  have hdisj : Disjoint (Set.Ico start (start + cnt)) (covered (exts sm.spaceObj)) :=
    h.disjoint.mono_left hused
  have hle : start + cnt ≤ 2 ^ 31 := by
    have := h.bounded (start + cnt - 1) (hused ⟨by omega, by omega⟩)
    omega
  unfold smFreeSpace
  refine Ends.bind (ends_zoom.mpr ((freeSpace_spec hm hfuel h.free hle hdisj).mono ?_
    fun _ _ hfalse => hfalse))
  rintro _ t ⟨hcov, -, hfree⟩
  rw [ends_modify]
  have hfree' := hfree h1
  have hcard : (covered (exts t)).ncard = sm.totalFreeBlocks + cnt := by
    rw [hcov, Set.ncard_union_eq hdisj.symm (covered_finite _) (Set.finite_Ico _ _), ncard_Ico,
      h.total]
  refine ⟨⟨hfree', ?_, h.hint, ?_, fun b hb => h.bounded b hb.1⟩, hcov⟩
  · have := hfree'.ncard_le
    dsimp only
    rw [hcard]
    exact Nat.mod_eq_of_lt (by omega)
  · dsimp only
    rw [hcov, Set.disjoint_union_right]
    exact ⟨h.disjoint.mono_left Set.sdiff_subset, Set.disjoint_sdiff_left⟩

/-! ## Runs -/

/-- One step keeps the invariant and the blocks that are allocated or free. -/
theorem SmInv.step (hm : OrderedMap ops exts pos) {fuel : ℕ} (hfuel : 2 ^ 31 < fuel)
    {a b : SpaceManager τ × Set ℕ} (hstep : SmStep ops fuel a b) (h : SmInv exts a.1 a.2) :
    SmInv exts b.1 b.2 ∧
      b.2 ∪ covered (exts b.1.spaceObj) = a.2 ∪ covered (exts a.1.spaceObj) := by
  cases hstep with
  | alloc h1 h2 hrun =>
    have hspec := smAllocSpace_spec hm h h1 h2
    rw [ends_of_ok hrun] at hspec
    obtain ⟨hinv, hsub, hcov⟩ := hspec
    refine ⟨hinv, ?_⟩
    dsimp only at *
    rw [hcov, Set.union_assoc, Set.union_sdiff_cancel hsub]
  | allocFail h1 h2 hrun =>
    have hspec := smAllocSpace_spec hm h h1 h2
    rw [ends_of_error hrun] at hspec
    obtain ⟨-, hinv, -, hext⟩ := hspec
    exact ⟨hinv, by rw [hext]⟩
  | free h1 h2 hrun =>
    have hspec := smFreeSpace_spec hm hfuel h h1 h2
    rw [ends_of_ok hrun] at hspec
    obtain ⟨hinv, hcov⟩ := hspec
    refine ⟨hinv, ?_⟩
    dsimp only at *
    rw [hcov, Set.union_comm (covered _), ← Set.union_assoc, Set.sdiff_union_of_subset h2]
  | freeFail h1 h2 hrun =>
    have hspec := smFreeSpace_spec hm hfuel h h1 h2
    rw [ends_of_error hrun] at hspec
    exact hspec.elim

/-- Every run keeps the invariant and the blocks that are allocated or free. -/
theorem SmInv.run (hm : OrderedMap ops exts pos) {fuel : ℕ} (hfuel : 2 ^ 31 < fuel)
    {a b : SpaceManager τ × Set ℕ} (hrun : Relation.ReflTransGen (SmStep ops fuel) a b)
    (h : SmInv exts a.1 a.2) :
    SmInv exts b.1 b.2 ∧
      b.2 ∪ covered (exts b.1.spaceObj) = a.2 ∪ covered (exts a.1.spaceObj) := by
  induction hrun with
  | refl => exact ⟨h, rfl⟩
  | tail _ hstep ih =>
    obtain ⟨hinv, hsame⟩ := ih
    obtain ⟨hinv', hsame'⟩ := hinv.step hm hfuel hstep
    exact ⟨hinv', hsame'.trans hsame⟩

/-- Over a tree that behaves as an ordered map, `alloc_space` and `free_space`
move exactly the blocks they report between free and allocated, and so over
every sequence of calls allocated ranges never overlap and `total_free_blocks`
is the number of free blocks. -/
theorem allocator_semantics (hm : OrderedMap ops exts pos) {fuel : ℕ} (hfuel : 2 ^ 31 < fuel) :
    (∀ t start cnt, FreeExtents (exts t) → start < 2 ^ 64 → 1 ≤ cnt → cnt < 2 ^ 31 →
      Ends (allocSpace ops start cnt) t
        (fun r t' => (∃ n : ℕ, r.1 = n ∧ 1 ≤ n ∧ n ≤ cnt) ∧
          (∃ e ∈ exts t, Set.Ico r.2 (r.2 + r.1.toNat) ⊆ Set.Ico e.1 (e.1 + e.2)) ∧
          FreeExtents (exts t') ∧
          covered (exts t') = covered (exts t) \ Set.Ico r.2 (r.2 + r.1.toNat) ∧
          covered (exts t) ≠ ∅)
        (fun ret t' => ret = .noFreeBlocks ∧ covered (exts t) = ∅ ∧ exts t' = exts t)) ∧
    (∀ t start cnt, FreeExtents (exts t) → start + cnt ≤ 2 ^ 31 →
      Disjoint (Set.Ico start (start + cnt)) (covered (exts t)) →
      Ends (freeSpace ops fuel start cnt) t
        (fun _ t' => covered (exts t') = covered (exts t) ∪ Set.Ico start (start + cnt) ∧
          Separated (exts t') ∧ (1 ≤ cnt → FreeExtents (exts t')))
        (fun _ _ => False)) ∧
    (∀ sm used sm' used', SmInv exts sm used →
      Relation.ReflTransGen (SmStep ops fuel) (sm, used) (sm', used') →
      Disjoint used' (covered (exts sm'.spaceObj)) ∧
      used' ∪ covered (exts sm'.spaceObj) = used ∪ covered (exts sm.spaceObj) ∧
      sm'.totalFreeBlocks = (covered (exts sm'.spaceObj)).ncard ∧
      ∀ cnt ret start sm'', 1 ≤ cnt → cnt < 2 ^ 31 →
        smAllocSpace ops cnt sm' = .ok (ret, start) sm'' →
        Disjoint (Set.Ico start (start + ret.toNat)) used') := by
  refine ⟨fun t start cnt hf hstart h1 h2 => ?_, fun t start cnt hf hle hdisj =>
    freeSpace_spec hm hfuel hf hle hdisj, fun sm used sm' used' hinv hrun => ?_⟩
  · refine (allocSpace_spec hm hf hstart h1 h2).mono ?_ ?_
    · rintro r t' ⟨hcount, hinside, hfree, hcov⟩
      obtain ⟨e, he, hsub⟩ := hinside
      have hne := mem_covered_of_mem he (hf.nonempty e he)
      exact ⟨hcount, ⟨e, he, hsub⟩, hfree, hcov, Set.nonempty_iff_ne_empty.mp ⟨_, hne⟩⟩
    · rintro ret t' ⟨hret, hnil, hext⟩
      exact ⟨hret, by simp [hnil], hext⟩
  · obtain ⟨hinv', hsame⟩ := hinv.run hm hfuel hrun
    refine ⟨hinv'.disjoint, hsame, hinv'.total, fun cnt ret start sm'' h1 h2 hok => ?_⟩
    have hspec := smAllocSpace_spec hm hinv' h1 h2
    rw [ends_of_ok hok] at hspec
    exact (hinv'.disjoint.mono_right hspec.2.1).symm

/-- Two free extents, `[4, 10)` and `[20, 23)`. -/
def twoExtents : ListTree :=
  { extents := [⟨(4, 6), by norm_num⟩, ⟨(20, 3), by norm_num⟩], cursor := 0 }

theorem freeExtents_twoExtents : FreeExtents twoExtents.exts where
  separated := by simp [twoExtents, ListTree.exts, Separated]
  nonempty := by simp [twoExtents, ListTree.exts]
  bounded := by simp [twoExtents, ListTree.exts]

/-- A space manager over them that goes on at block 5. -/
def twoExtentsManager : SpaceManager ListTree :=
  { spaceObj := twoExtents, firstFreeBlock := 5, totalFreeBlocks := 9 }

/-- The blocks 5 and 6 are allocated. -/
def twoExtentsAlloc : SpaceManager ListTree where
  spaceObj :=
    { extents := [⟨(4, 1), by norm_num⟩, ⟨(7, 3), by norm_num⟩, ⟨(20, 3), by norm_num⟩], cursor := 0 }
  firstFreeBlock := 7
  totalFreeBlocks := 7

/-- Block 5 is freed again. -/
def twoExtentsFree : SpaceManager ListTree where
  spaceObj :=
    { extents := [⟨(4, 2), by norm_num⟩, ⟨(7, 3), by norm_num⟩, ⟨(20, 3), by norm_num⟩], cursor := 0 }
  firstFreeBlock := 7
  totalFreeBlocks := 8

theorem smInv_twoExtents : SmInv ListTree.exts twoExtentsManager ∅ where
  free := freeExtents_twoExtents
  total := (ncard_covered freeExtents_twoExtents.separated).symm
  hint := by decide
  disjoint := Set.empty_disjoint _
  bounded := by simp

/-- Allocating two blocks near block 5 from them, freeing the blocks 10 to 12, and the run that
allocates the blocks 5 and 6 and frees block 5. -/
theorem allocator_semantics_twoExtents :
    Ends (allocSpace ListTree.ops 5 2) twoExtents
      (fun r t' => (∃ n : ℕ, r.1 = n ∧ 1 ≤ n ∧ n ≤ 2) ∧
        (∃ e ∈ twoExtents.exts, Set.Ico r.2 (r.2 + r.1.toNat) ⊆ Set.Ico e.1 (e.1 + e.2)) ∧
        FreeExtents t'.exts ∧
        covered t'.exts = covered twoExtents.exts \ Set.Ico r.2 (r.2 + r.1.toNat) ∧
        covered twoExtents.exts ≠ ∅)
      (fun ret t' => ret = .noFreeBlocks ∧ covered twoExtents.exts = ∅ ∧
        t'.exts = twoExtents.exts) ∧
    Ends (freeSpace ListTree.ops (2 ^ 31 + 1) 10 3) twoExtents
      (fun _ t' => covered t'.exts = covered twoExtents.exts ∪ Set.Ico 10 (10 + 3) ∧
        Separated t'.exts ∧ (1 ≤ 3 → FreeExtents t'.exts)) (fun _ _ => False) ∧
    Disjoint (Set.Ico 5 7 \ Set.Ico 5 6) (covered twoExtentsFree.spaceObj.exts) ∧
    Set.Ico 5 7 \ Set.Ico 5 6 ∪ covered twoExtentsFree.spaceObj.exts = covered twoExtents.exts ∧
    8 = (covered twoExtentsFree.spaceObj.exts).ncard := by
  obtain ⟨halloc, hfree, hrun⟩ :=
    @allocator_semantics _ _ _ _ ListTree.listTree_orderedMap (2 ^ 31 + 1) (by norm_num)
  have hnext : Disjoint (Set.Ico 10 (10 + 3)) (covered twoExtents.exts) := by
    rw [Set.disjoint_left]
    rintro b hb ⟨e, he, hbe⟩
    simp only [ListTree.exts, twoExtents, List.map_cons, List.map_nil, List.mem_cons,
      List.not_mem_nil, or_false] at he
    simp only [Set.mem_Ico] at hb hbe
    rcases he with rfl | rfl <;> omega
  have hcall : smAllocSpace ListTree.ops 2 twoExtentsManager = .ok (2, 5) twoExtentsAlloc := rfl
  have hcall' : smFreeSpace ListTree.ops (2 ^ 31 + 1) 5 1 twoExtentsAlloc = .ok () twoExtentsFree := rfl
  have hstep : SmStep ListTree.ops (2 ^ 31 + 1) (twoExtentsManager, ∅)
      (twoExtentsAlloc, ∅ ∪ Set.Ico 5 7) := .alloc (by norm_num) (by norm_num) hcall
  have hsub : Set.Ico 5 (5 + 1) ⊆ ∅ ∪ Set.Ico 5 7 := by
    rw [Set.empty_union]
    exact Set.Ico_subset_Ico le_rfl (by norm_num)
  have hstep' : SmStep ListTree.ops (2 ^ 31 + 1) (twoExtentsAlloc, ∅ ∪ Set.Ico 5 7)
      (twoExtentsFree, (∅ ∪ Set.Ico 5 7) \ Set.Ico 5 6) := .free (by norm_num) hsub hcall'
  obtain ⟨hdisj, hsame, htotal, -⟩ := hrun _ _ _ _ smInv_twoExtents (.tail (.single hstep) hstep')
  rw [Set.empty_union] at hdisj hsame
  rw [Set.empty_union] at hsame
  exact ⟨halloc twoExtents 5 2 freeExtents_twoExtents (by norm_num) (by norm_num) (by norm_num),
    hfree twoExtents 10 3 freeExtents_twoExtents (by norm_num) hnext, hdisj, hsame, htotal⟩

end IndexFs.Space
