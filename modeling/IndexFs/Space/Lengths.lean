import IndexFs.Space.Container
import IndexFs.Space.Runs

/-!
# The lengths of the extents

The tree stores the length of an extent in 64 bits, `alloc_space` and
`free_space` read it into a `uint32_t`, and a count comes back as an `int32_t`.
A container with fewer than `2^32 + 3` blocks starts with an extent that fits in
the local variable, and no operation makes a longer one.

Results:

* `ExtentsIn.alloc`, `ExtentsIn.freed`: one call.
* `ExtentsIn.run`: every run of calls that meet the condition keeps the extents
  inside the container.
* `lengths_exact`: in every such run, each call changes the sum of the lengths by
  the count it reports.
* `lengths_truncated`: with more blocks the first allocation loses `2^32` of them,
  and so does a free of too many.
-/

namespace IndexFs.Space

open IndexFs.Collate

variable {τ : Type} {ops : TreeOps τ} {exts : τ → List (ℕ × ℕ)} {pos : τ → ℕ} {lo hi : ℕ}

/-- The sum of the lengths. -/
def lengths (l : List (ℕ × ℕ)) : ℕ := (l.map Prod.snd).sum

/-- A call of `alloc_space` or `free_space`. -/
inductive SpaceCall
  | alloc (start cnt : ℕ)
  | free (start cnt : ℕ)

/-- One call with a 64-bit block number and a 32-bit count, and the tree it leaves. -/
inductive SpaceStep (ops : TreeOps τ) (fuel : ℕ) : SpaceCall → τ → τ → Prop
  | alloc {t t' start cnt r} (hstart : start < 2 ^ 64) (hcnt : cnt < 2 ^ 32)
      (h : allocSpace ops start cnt t = .ok r t') : SpaceStep ops fuel (.alloc start cnt) t t'
  | allocFail {t t' start cnt e} (hstart : start < 2 ^ 64) (hcnt : cnt < 2 ^ 32)
      (h : allocSpace ops start cnt t = .error e t') : SpaceStep ops fuel (.alloc start cnt) t t'
  | free {t t' start cnt} (hstart : start < 2 ^ 64) (hcnt : cnt < 2 ^ 32)
      (h : freeSpace ops fuel start cnt t = .ok () t') : SpaceStep ops fuel (.free start cnt) t t'
  | freeFail {t t' start cnt e} (hstart : start < 2 ^ 64) (hcnt : cnt < 2 ^ 32)
      (h : freeSpace ops fuel start cnt t = .error e t') : SpaceStep ops fuel (.free start cnt) t t'

/-- What a call has to respect: it is for one block at least, an allocation is not served `2^31`
blocks or more, and a free is of blocks between `lo` and `hi` that are not free. -/
def SpaceCall.Meets (exts : τ → List (ℕ × ℕ)) (lo hi : ℕ) (t : τ) : SpaceCall → Prop
  | .alloc start cnt => 1 ≤ cnt ∧ ServesInt32 (exts t) start cnt
  | .free start cnt => 1 ≤ cnt ∧ lo ≤ start ∧ start + cnt ≤ hi ∧
      Disjoint (Set.Ico start (start + cnt)) (covered (exts t))

/-- A call that meets the condition, and the tree it leaves. -/
def MetStep (ops : TreeOps τ) (exts : τ → List (ℕ × ℕ)) (lo hi fuel : ℕ) (t t' : τ) : Prop :=
  ∃ c, SpaceCall.Meets exts lo hi t c ∧ SpaceStep ops fuel c t t'

/-! ## One call -/

/-- The extents after an allocation are shorter by the returned count. -/
theorem AllocatedIn.lengths_eq {l l' : List (ℕ × ℕ)} {cnt : ℕ} {r : ℤ × ℕ}
    (h : AllocatedIn lo hi l cnt r l') (hl : Separated l) : lengths l' + r.1.toNat = lengths l := by
  obtain ⟨e, he, hinside⟩ := h.inside
  have hsub : Set.Ico r.2 (r.2 + r.1.toNat) ⊆ covered l := fun b hb => ⟨e, he, hinside hb⟩
  unfold lengths
  rw [← ncard_covered h.free.separated, ← ncard_covered hl, h.covered_eq,
    ← Set.ncard_sdiff_add_ncard_of_subset hsub (covered_finite _), ncard_Ico]

/-- An allocation takes its count off the lengths, and the count is a positive `int32_t`. -/
theorem ExtentsIn.alloc (hm : OrderedMap ops exts pos) (hw : Window lo hi) {t : τ}
    (h : ExtentsIn lo hi (exts t)) {start cnt : ℕ} (hstart : start < 2 ^ 64) (hcnt : cnt < 2 ^ 32)
    (hmeets : SpaceCall.Meets exts lo hi t (.alloc start cnt)) :
    Ends (allocSpace ops start cnt) t
      (fun r t' => ExtentsIn lo hi (exts t') ∧
        ∃ n : ℕ, r.1 = n ∧ 1 ≤ n ∧ lengths (exts t') + n = lengths (exts t))
      (fun e t' => e = .noFreeBlocks ∧ exts t = [] ∧ exts t' = exts t) := by
  obtain ⟨hpos, hserves⟩ := hmeets
  refine (allocSpace_window hm h hw hstart hpos hcnt hserves).mono ?_ fun _ _ h => h
  intro r t' ha
  obtain ⟨n, hn, hn1, -⟩ := ha.count
  have hsum := ha.lengths_eq h.separated
  rw [hn, Int.toNat_natCast] at hsum
  exact ⟨ha.free, n, hn, hn1, hsum⟩

/-- Freeing blocks that are not free adds their number to the lengths. -/
theorem ExtentsIn.freed (hm : OrderedMap ops exts pos) (hw : Window lo hi) {fuel : ℕ}
    (hfuel : hi < fuel) {t : τ} (h : ExtentsIn lo hi (exts t)) {start cnt : ℕ}
    (hmeets : SpaceCall.Meets exts lo hi t (.free start cnt)) :
    Ends (freeSpace ops fuel start cnt) t
      (fun _ t' => ExtentsIn lo hi (exts t') ∧ lengths (exts t') = lengths (exts t) + cnt)
      (fun _ _ => False) := by
  obtain ⟨hpos, hlo, hhi, hdisj⟩ := hmeets
  refine (freeSpace_window hm hw hfuel h hlo hhi hdisj).mono ?_ fun _ _ h => h
  rintro _ t' ⟨hcov, hsep, hfree⟩
  refine ⟨hfree hpos, ?_⟩
  unfold lengths
  rw [← ncard_covered hsep, ← ncard_covered h.separated, hcov,
    Set.ncard_union_eq hdisj.symm (covered_finite _) (Set.finite_Ico _ _), ncard_Ico]

/-! ## Runs -/

/-- A call that meets the condition leaves separated extents between `lo` and `hi`. -/
theorem ExtentsIn.step (hm : OrderedMap ops exts pos) (hw : Window lo hi) {fuel : ℕ}
    (hfuel : hi < fuel) {t t' : τ} (h : ExtentsIn lo hi (exts t))
    (hstep : MetStep ops exts lo hi fuel t t') : ExtentsIn lo hi (exts t') := by
  obtain ⟨c, hmeets, hcall⟩ := hstep
  cases hcall with
  | alloc hstart hcnt hrun =>
    have hspec := h.alloc hm hw hstart hcnt hmeets
    rw [ends_of_ok hrun] at hspec
    exact hspec.1
  | allocFail hstart hcnt hrun =>
    have hspec := h.alloc hm hw hstart hcnt hmeets
    rw [ends_of_error hrun] at hspec
    rw [hspec.2.2]
    exact h
  | free _ _ hrun =>
    have hspec := h.freed hm hw hfuel hmeets
    rw [ends_of_ok hrun] at hspec
    exact hspec.1
  | freeFail _ _ hrun =>
    have hspec := h.freed hm hw hfuel hmeets
    rw [ends_of_error hrun] at hspec
    exact hspec.elim

/-- So does every run of such calls. -/
theorem ExtentsIn.run (hm : OrderedMap ops exts pos) (hw : Window lo hi) {fuel : ℕ}
    (hfuel : hi < fuel) {t t' : τ} (h : ExtentsIn lo hi (exts t))
    (hrun : Relation.ReflTransGen (MetStep ops exts lo hi fuel) t t') : ExtentsIn lo hi (exts t') := by
  induction hrun with
  | refl => exact h
  | tail _ hstep ih => exact ih.step hm hw hfuel hstep

/-! ## From the super block on -/

/-- What `init_super_block` and the two inodes leave as free space. -/
theorem initSuperBlock_spec {totalSectors shift : ℕ} {sb : SuperBlock}
    (h : initSuperBlock totalSectors shift = .ok sb) (h64 : totalSectors < 2 ^ 64) :
    sb.totalBlocks = totalSectors / 8 ∧ 10 ≤ sb.totalBlocks ∧ sb.takeInodes.firstFreeBlock = 3 ∧
      sb.takeInodes.freeBlocks = sb.totalBlocks - 3 := by
  unfold initSuperBlock at h
  by_cases hshift : shift = bytesPerBlockShift
  swap
  · simp [hshift] at h
  subst hshift
  dsimp only at h
  rw [if_neg (by simp)] at h
  split_ifs at h with hmin
  injection h with h
  subst h
  simp only [minBlocksNum, bytesPerBlockShift, bytesPerSectorShift, Nat.shiftRight_eq_div_pow] at hmin
  simp only [SuperBlock.takeInodes, bytesPerBlockShift, bytesPerSectorShift, uint64, uint64Sub,
    Nat.shiftRight_eq_div_pow]
  exact ⟨trivial, by omega, by omega, by omega⟩

/-- `ofs_init_free_space` writes one extent with all 64 bits of its length. -/
theorem ofsInitFreeSpace_spec (hm : OrderedMap ops exts pos) {sm : SpaceManager τ}
    (hempty : exts sm.spaceObj = []) {start cnt : ℕ} (hstart : start < 2 ^ 64) (hcnt : cnt < 2 ^ 64) :
    Ends (ofsInitFreeSpace ops start cnt) sm (fun _ sm' => exts sm'.spaceObj = [(start, cnt)])
      (fun _ _ => False) :=
  ends_zoom.mpr (hm.insert sm.spaceObj start cnt [] [] hstart hcnt hempty (by simp) (by simp))

/-- `sm_alloc_space` hands the count of `alloc_space` on. -/
theorem smAllocSpace_count {sm : SpaceManager τ} {cnt : ℕ} {Q : τ → ℕ → Prop}
    {F : ErrorCode → τ → Prop} (htotal : sm.totalFreeBlocks ≠ 0)
    (h : Ends (allocSpace ops sm.firstFreeBlock cnt) sm.spaceObj
      (fun r t' => ∃ n : ℕ, r.1 = n ∧ Q t' n) (fun e t' => e.stops = false ∧ F e t')) :
    Ends (smAllocSpace ops cnt) sm (fun r sm' => ∃ n : ℕ, r.1 = n ∧ Q sm'.spaceObj n)
      (fun e sm' => F e sm'.spaceObj) := by
  unfold smAllocSpace
  refine Ends.bind ?_
  rw [ends_get, if_neg htotal]
  refine Ends.bind (Ends.codeOf (ends_zoom.mpr (h.mono ?_ ?_)))
  · rintro ⟨ret, start⟩ t ⟨n, hret, hq⟩
    dsimp only at hret ⊢
    rw [if_neg (by omega)]
    exact Ends.bind ⟨n, hret, hq⟩
  · rintro e t ⟨hstops, hF⟩
    refine ⟨hstops, ?_⟩
    dsimp only
    split_ifs
    · exact Ends.bind hF
    · exact hF

/-- In a container whose first extent is shorter than `2^32` blocks, and as long as every call meets
the condition, each call changes the sum of the stored lengths by exactly its count, and the count of
an allocation comes back positive. -/
theorem lengths_exact (hm : OrderedMap ops exts pos) {totalSectors shift fuel : ℕ} {sb : SuperBlock}
    {t₀ : τ} {sm : SpaceManager τ} (h64 : totalSectors < 2 ^ 64)
    (hsb : initSuperBlock totalSectors shift = .ok sb) (hempty : exts t₀ = [])
    (hinit : ofsInitFreeSpace ops sb.takeInodes.firstFreeBlock sb.takeInodes.freeBlocks
      (ofsInitSm t₀ sb.takeInodes.firstFreeBlock sb.takeInodes.freeBlocks) = .ok () sm)
    (hsmall : sb.totalBlocks - 3 < 2 ^ 32) (hfuel : sb.totalBlocks < fuel) {t : τ}
    (hrun : Relation.ReflTransGen (MetStep ops exts 3 sb.totalBlocks fuel) sm.spaceObj t) :
    exts sm.spaceObj = [(3, sb.totalBlocks - 3)] ∧
    (∀ start cnt, start < 2 ^ 64 → cnt < 2 ^ 32 →
      SpaceCall.Meets exts 3 sb.totalBlocks t (.alloc start cnt) →
      Ends (allocSpace ops start cnt) t
        (fun r t' => ∃ n : ℕ, r.1 = n ∧ 1 ≤ n ∧ lengths (exts t') + n = lengths (exts t))
        (fun e t' => e = .noFreeBlocks ∧ exts t = [] ∧ exts t' = exts t)) ∧
    (∀ start cnt, SpaceCall.Meets exts 3 sb.totalBlocks t (.free start cnt) →
      Ends (freeSpace ops fuel start cnt) t
        (fun _ t' => lengths (exts t') = lengths (exts t) + cnt) (fun _ _ => False)) ∧
    (∀ (sm' : SpaceManager τ) cnt, sm'.spaceObj = t → sm'.firstFreeBlock < 2 ^ 64 →
      sm'.totalFreeBlocks ≠ 0 → cnt < 2 ^ 32 →
      SpaceCall.Meets exts 3 sb.totalBlocks t (.alloc sm'.firstFreeBlock cnt) →
      Ends (smAllocSpace ops cnt) sm'
        (fun r sm'' => ∃ n : ℕ, r.1 = n ∧ 1 ≤ n ∧
          lengths (exts sm''.spaceObj) + n = lengths (exts t))
        (fun e sm'' => e = .noFreeBlocks ∧ exts t = [] ∧ exts sm''.spaceObj = exts t)) := by
  obtain ⟨-, hmin, hfirst, hfree⟩ := initSuperBlock_spec hsb h64
  have hext : exts sm.spaceObj = [(3, sb.totalBlocks - 3)] := by
    rw [hfirst, hfree] at hinit
    have hspec := @ofsInitFreeSpace_spec _ _ _ _ hm (ofsInitSm t₀ 3 (sb.totalBlocks - 3)) hempty 3
      (sb.totalBlocks - 3) (by norm_num) (by omega)
    rwa [ends_of_ok hinit] at hspec
  have hw : Window 3 sb.totalBlocks := ⟨by omega, by omega⟩
  have hstart : ExtentsIn 3 sb.totalBlocks (exts sm.spaceObj) := by
    rw [hext]
    refine ⟨by simp [Separated], ?_, ?_⟩
    · simp
      omega
    · simp
      omega
  have hinv := hstart.run hm hw hfuel hrun
  have halloc : ∀ start cnt, start < 2 ^ 64 → cnt < 2 ^ 32 →
      SpaceCall.Meets exts 3 sb.totalBlocks t (.alloc start cnt) → Ends (allocSpace ops start cnt) t
        (fun r t' => ∃ n : ℕ, r.1 = n ∧ 1 ≤ n ∧ lengths (exts t') + n = lengths (exts t))
        (fun e t' => e = .noFreeBlocks ∧ exts t = [] ∧ exts t' = exts t) :=
    fun start cnt hs hc hmeets =>
      (hinv.alloc hm hw hs hc hmeets).mono (fun _ _ h => h.2) fun _ _ h => h
  refine ⟨hext, halloc, fun start cnt hmeets => ?_, ?_⟩
  · exact (hinv.freed hm hw hfuel hmeets).mono (fun _ _ h => h.2) fun _ _ h => h
  · rintro sm' cnt rfl hhint htotal hc hmeets
    have hcall := (halloc _ cnt hhint hc hmeets).mono (fun _ _ h => h) fun e t' h =>
      (⟨by rw [h.1]; rfl, h⟩ : e.stops = false ∧ e = .noFreeBlocks ∧ _ ∧ exts t' = _)
    exact smAllocSpace_count htotal hcall

/-- The space object before the first extent is written. -/
def emptyList : ListTree := { extents := [], cursor := 0 }

/-- The initial extent of a container of 80 sectors. -/
def smallList : ListTree := { extents := [⟨(3, 7), by norm_num⟩], cursor := 0 }

/-- The blocks 4 and 5 are allocated. -/
def smallListRest : ListTree :=
  { extents := [⟨(3, 1), by norm_num⟩, ⟨(6, 4), by norm_num⟩], cursor := 0 }

/-- In that container blocks 4 and 5 are allocated; freeing block 4 again adds one to the lengths. -/
theorem lengths_exact_small :
    allocSpace ListTree.ops 4 2 smallList = .ok (2, 4) smallListRest ∧
    Ends (freeSpace ListTree.ops 11 4 1) smallListRest
      (fun _ t' => lengths t'.exts = lengths smallListRest.exts + 1) (fun _ _ => False) := by
  have hinit : ofsInitFreeSpace ListTree.ops 3 7 (ofsInitSm emptyList 3 7) =
      .ok () (ofsInitSm smallList 3 7) := rfl
  have halloc : allocSpace ListTree.ops 4 2 smallList = .ok (2, 4) smallListRest := rfl
  have hmeets : SpaceCall.Meets ListTree.exts 3 10 smallList (.alloc 4 2) :=
    ⟨by norm_num, servesInt32_of_lt (by norm_num)⟩
  have hrun : Relation.ReflTransGen (MetStep ListTree.ops ListTree.exts 3 10 11) smallList
      smallListRest := .single ⟨_, hmeets, .alloc (by norm_num) (by norm_num) halloc⟩
  have hfree : SpaceCall.Meets ListTree.exts 3 10 smallListRest (.free 4 1) := by
    refine ⟨by norm_num, by norm_num, by norm_num, Set.disjoint_left.mpr ?_⟩
    rintro b hb ⟨e, he, hbe⟩
    simp only [ListTree.exts, smallListRest, List.map_cons, List.map_nil, List.mem_cons,
      List.not_mem_nil, or_false] at he
    rcases he with rfl | rfl
    · simp only [Set.mem_Ico] at hb hbe
      omega
    · simp only [Set.mem_Ico] at hb hbe
      omega
  exact ⟨halloc, (@lengths_exact _ _ _ _ ListTree.listTree_orderedMap 80 12 11 ⟨10, 9, 1⟩ emptyList _
    (by norm_num) rfl rfl hinit (by norm_num) (by norm_num) _ hrun).2.2.1 4 1 hfree⟩

/-- The initial extent of a container with `2^32 + 13` blocks. -/
def largeList : ListTree := { extents := [⟨(3, 2 ^ 32 + 10), by norm_num⟩], cursor := 0 }

/-- What the first allocation of one block leaves of it. -/
def largeListRest : ListTree := { extents := [⟨(4, 9), by norm_num⟩], cursor := 0 }

/-- What is left of seven free blocks when `2^32 - 1` blocks behind them are freed. -/
def shrunkList : ListTree := { extents := [⟨(3, 6), by norm_num⟩], cursor := 0 }

/-- The first allocation of one block in a container with `2^32 + 13` blocks takes the extent out,
puts nine blocks back and returns `1`. In a container of ten blocks a free of two blocks that are free
adds none, and one of `2^32 - 1` blocks behind the last takes one off. -/
theorem lengths_truncated :
    (initSuperBlock (8 * (2 ^ 32 + 13)) 12 = .ok ⟨2 ^ 32 + 13, 2 ^ 32 + 12, 1⟩ ∧
      ofsInitFreeSpace ListTree.ops 3 (2 ^ 32 + 10) (ofsInitSm emptyList 3 (2 ^ 32 + 10)) =
        .ok () (ofsInitSm largeList 3 (2 ^ 32 + 10)) ∧
      allocSpace ListTree.ops 3 1 largeList = .ok (1, 3) largeListRest ∧
      lengths largeList.exts = 2 ^ 32 + 10 ∧ lengths largeListRest.exts = 9) ∧
    (initSuperBlock 80 12 = .ok ⟨10, 9, 1⟩ ∧
      ofsInitFreeSpace ListTree.ops 3 7 (ofsInitSm emptyList 3 7) = .ok () (ofsInitSm smallList 3 7) ∧
      freeSpace ListTree.ops 11 3 2 smallList = .ok () smallList ∧
      freeSpace ListTree.ops 11 10 (2 ^ 32 - 1) smallList = .ok () shrunkList ∧
      lengths smallList.exts = 7 ∧ lengths shrunkList.exts = 6) := by
  refine ⟨⟨by decide, rfl, ?_, ?_, ?_⟩, by decide, rfl, rfl, ?_, ?_, ?_⟩
  · -- the 64-bit length is read as ten
    have hsearch : allocSpaceSearch ListTree.ops 3 1 largeList = .ok 3 largeList := rfl
    have haddr : ieAddr ListTree.ops largeList = .ok 3 largeList := rfl
    have hlen : ieLen ListTree.ops largeList = .ok 10 largeList := rfl
    have hremove : ListTree.ops.treeRemoveIe largeList = .ok () emptyList := rfl
    have hfront : allocSpaceFront ListTree.ops 3 13 10 1 emptyList = .ok (1, 3) largeListRest := rfl
    unfold allocSpace
    simp only [bind, EStateM.bind, assertThat, pure, EStateM.pure, hsearch, haddr, hlen, hremove,
      ne_eq, one_ne_zero, OfNat.ofNat_ne_zero, not_false_eq_true, if_true, le_refl]
    exact hfront
  · simp [lengths, ListTree.exts, largeList]
  · simp [lengths, ListTree.exts, largeListRest]
  · -- the count wraps when the extent before the range is merged into it
    rfl
  · simp [lengths, ListTree.exts, smallList]
  · simp [lengths, ListTree.exts, shrunkList]

end IndexFs.Space
