import IndexFs.Space.Container
import IndexFs.Space.Runs

/-!
# Freeing blocks that are free

`free_space` looks for an overlap with the freed range and comments a hit as an
error, but it returns the code of the search, which is `0`. So the tree stays as
it is, the caller sees a success, and `sm_free_space` counts the blocks again.

Results:

* `freeSpace_meets`: a range that meets a free extent is accepted.
* `reserveBaseSpace_spec`: a refill of `bsm` only takes blocks out of `sm`.
* `free_again_not_rejected`: none of the three functions rejects such a range.
-/

namespace IndexFs.Space

open IndexFs.Collate

variable {τ : Type} {ops : TreeOps τ} {exts : τ → List (ℕ × ℕ)} {pos : τ → ℕ} {lo hi : ℕ}

/-- The call returns a negative code and leaves what `view` reads as it was. -/
def Rejected {σ α β : Type} (code : α → ℤ) (view : σ → β) (x : EStateM ErrorCode σ α) (s : σ) : Prop :=
  Ends x s (fun a s' => code a < 0 ∧ view s' = view s)
    (fun e s' => e.stops = false ∧ view s' = view s)

/-- The range shares a block with a free extent. -/
def MeetsFree (l : List (ℕ × ℕ)) (start cnt : ℕ) : Prop :=
  (Set.Ico start (start + cnt) ∩ covered l).Nonempty

/-- The extents and the count of free blocks of a space manager. -/
def SpaceManager.view (exts : τ → List (ℕ × ℕ)) (sm : SpaceManager τ) : List (ℕ × ℕ) × ℕ :=
  (exts sm.spaceObj, sm.totalFreeBlocks)

/-- The space manager that `ofs_free_space` frees into. -/
def Container.managerOf (objid : ℕ) (ct : Container τ) : SpaceManager τ :=
  if objid = spaceObjId then ct.bsm else ct.sm

/-- A call that succeeds with the code `0`, and changes something when it fails, is no rejection. -/
theorem not_rejected {σ α β : Type} {code : α → ℤ} {view : σ → β} {x : EStateM ErrorCode σ α} {s : σ}
    (h : Ends x s (fun a _ => code a = 0) (fun e s' => e.stops = true ∨ view s' ≠ view s)) :
    ¬ Rejected code view x s := by
  intro hr
  rcases ends_iff.mp (h.and hr) with ⟨a, s', -, h0, hneg, -⟩ | ⟨e, s', -, hstop | hne, h2, heq⟩
  · omega
  · simp [hstop] at h2
  · exact hne heq

/-! ## `free_space` and `sm_free_space` -/

/-- The search finds the overlap, and nothing else is done. -/
theorem freeSpace_meets (hm : OrderedMap ops exts pos) {fuel : ℕ} {t : τ} {start cnt : ℕ}
    (hhi : hi + 2 ^ 32 ≤ 2 ^ 64) (hf : ExtentsIn lo hi (exts t)) (hcnt : cnt < 2 ^ 32)
    (hmeet : MeetsFree (exts t) start cnt) :
    Ends (freeSpace ops fuel start cnt) t (fun _ t' => exts t' = exts t) (fun _ _ => False) := by
  obtain ⟨b, ⟨hb1, hb2⟩, e, he, hb⟩ := hmeet
  have hbound := hf.bounded e he
  simp only [Set.mem_Ico] at hb
  obtain ⟨A, B, C, hABC, hA, hB, hC⟩ :=
    exists_split _ (hf.extentOrd_monotone (by omega) start cnt)
  have hzero : extentOrd start cnt e = 0 := by
    unfold extentOrd uint64
    rw [if_neg (by omega), if_neg (by omega)]
  have heB : e ∈ B := by
    rw [hABC, List.append_assoc, List.mem_append, List.mem_append] at he
    rcases he with he | he | he
    · exact absurd hzero (hA e he).ne
    · exact he
    · exact absurd hzero (hC e he).ne'
  unfold freeSpace
  refine Ends.bind (Ends.codeOf
    ((hm.search t start cnt A B C (by omega) (by omega) hABC hA hB hC).mono ?found ?notFound))
  case found =>
    rintro _ t' ⟨hext, -⟩
    exact hext
  case notFound =>
    rintro ret t' ⟨-, hnil, -⟩
    rw [hnil] at heB
    exact absurd heB (by simp)

/-- `sm_free_space` takes the `0` for a success. -/
theorem smFreeSpace_meets (hm : OrderedMap ops exts pos) {fuel : ℕ} {sm : SpaceManager τ}
    {start cnt : ℕ} (hhi : hi + 2 ^ 32 ≤ 2 ^ 64) (hf : ExtentsIn lo hi (exts sm.spaceObj))
    (hcnt : cnt < 2 ^ 32) (hmeet : MeetsFree (exts sm.spaceObj) start cnt) :
    Ends (smFreeSpace ops fuel start cnt) sm
      (fun _ sm' => exts sm'.spaceObj = exts sm.spaceObj ∧
        sm'.totalFreeBlocks = uint64 (sm.totalFreeBlocks + cnt)) (fun _ _ => False) := by
  unfold smFreeSpace
  refine Ends.bind (ends_zoom.mpr ((freeSpace_meets hm hhi hf hcnt hmeet).mono ?_ fun _ _ h => h))
  intro _ t hext
  rw [ends_modify]
  exact ⟨hext, rfl⟩

/-! ## The refill -/

/-- The space manager has lost some of the blocks `S`. -/
structure Drained (exts : τ → List (ℕ × ℕ)) (lo hi : ℕ) (S : Set ℕ) (sm : SpaceManager τ) : Prop where
  free : ExtentsIn lo hi (exts sm.spaceObj)
  hint : sm.firstFreeBlock < 2 ^ 64
  lost : covered (exts sm.spaceObj) ⊂ S

/-- An allocation takes blocks away; it fails only with nothing free or a count of zero. -/
theorem smAllocSpace_drained (hm : OrderedMap ops exts pos) (hw : Window lo hi)
    {sm : SpaceManager τ} {S : Set ℕ} {cnt : ℕ} (hf : ExtentsIn lo hi (exts sm.spaceObj))
    (hhint : sm.firstFreeBlock < 2 ^ 64) (hsub : covered (exts sm.spaceObj) ⊆ S) (h1 : 1 ≤ cnt)
    (h2 : cnt < 2 ^ 31) :
    Ends (smAllocSpace ops cnt) sm (fun r sm' => 0 ≤ r.1 ∧ Drained exts lo hi S sm')
      (fun _ sm' => exts sm'.spaceObj = exts sm.spaceObj ∧
        (sm.totalFreeBlocks = 0 ∨ covered (exts sm.spaceObj) = ∅)) := by
  unfold smAllocSpace
  refine Ends.bind ?_
  rw [ends_get]
  split_ifs with htotal
  · exact ⟨rfl, .inl htotal⟩
  · refine Ends.bind (Ends.codeOf (ends_zoom.mpr
      ((allocSpace_window hm hf hw hhint h1 (by omega) (servesInt32_of_lt h2)).mono ?ok ?fail)))
    case ok =>
      rintro ⟨ret, start⟩ t ⟨⟨n, hret, hn1, hn2⟩, ⟨e, he, hinside⟩, hfree, hcov⟩
      dsimp only at hret hinside hcov ⊢
      subst hret
      rw [if_neg (by omega)]
      refine Ends.bind ?_
      rw [ends_modify, ends_pure]
      refine ⟨by simp, hfree, Nat.mod_lt _ (by norm_num), ?_⟩
      dsimp only
      have hmem : start ∈ Set.Ico start (start + (n : ℤ).toNat) := by simp; omega
      have hstart : start ∈ covered (exts sm.spaceObj) := ⟨e, he, hinside hmem⟩
      rw [hcov]
      have hlost : covered (exts sm.spaceObj) \ Set.Ico start (start + (n : ℤ).toNat) ⊂
          covered (exts sm.spaceObj) :=
        (Set.ssubset_iff_of_subset Set.sdiff_subset).mpr ⟨start, hstart, fun h => h.2 hmem⟩
      exact hlost.trans_subset hsub
    case fail =>
      rintro ret t ⟨rfl, hnil, hext⟩
      refine ⟨rfl, ?_⟩
      dsimp only
      rw [if_pos rfl]
      refine Ends.bind ?_
      rw [ends_modify, ends_throw]
      exact ⟨hext, .inr (by simp [hnil])⟩

/-- Each round of the refill takes blocks out of `sm`. -/
theorem refillBase_spec (hm : OrderedMap ops exts pos) (hw : Window lo hi) {S : Set ℕ}
    (freeFuel fuel : ℕ) {ct : Container τ} (hf : ExtentsIn lo hi (exts ct.sm.spaceObj))
    (hhint : ct.sm.firstFreeBlock < 2 ^ 64) (hsub : covered (exts ct.sm.spaceObj) ⊆ S)
    (hgood : covered (exts ct.sm.spaceObj) ⊂ S ∨
      ct.sm.totalFreeBlocks ≠ 0 ∧ covered (exts ct.sm.spaceObj) ≠ ∅) :
    Ends (refillBase ops freeFuel fuel) ct
      (fun r ct' => r = 0 ∧ (minBlkNum < ct.bsm.totalFreeBlocks ∧ ct' = ct ∨ Drained exts lo hi S ct'.sm))
      (fun e ct' => e.stops = true ∨ covered (exts ct'.sm.spaceObj) ⊂ S) := by
  induction fuel generalizing ct with
  | zero => exact .inl rfl
  | succ fuel ih =>
    unfold refillBase
    refine Ends.bind ?_
    rw [ends_get]
    split_ifs with hlow
    · obtain ⟨cnt, hcnt, h1, h2⟩ : ∃ cnt, uint32 (uint64Sub maxBlkNum ct.bsm.totalFreeBlocks) = cnt ∧
          1 ≤ cnt ∧ cnt < 2 ^ 31 := by
        simp only [minBlkNum] at hlow
        exact ⟨_, rfl, by simp only [uint32, uint64Sub, maxBlkNum]; omega,
          by simp only [uint32, uint64Sub, maxBlkNum]; omega⟩
      rw [hcnt]
      refine Ends.bind (ends_zoom.mpr ((smAllocSpace_drained hm hw hf hhint hsub h1 h2).mono
        ?ok ?fail))
      case fail =>
        rintro e sm ⟨hext, hnone⟩
        dsimp only
        rw [hext]
        rcases hgood with hlost | ⟨htotal, hne⟩
        · exact .inr hlost
        · exact absurd hnone (not_or.mpr ⟨htotal, hne⟩)
      case ok =>
        rintro ⟨ret, start⟩ sm ⟨hret, hd⟩
        dsimp only at hret ⊢
        rw [if_neg (by omega)]
        refine Ends.bind (ends_zoom.mpr ((ends_true _ _).mono ?_ ?_))
        · intro _ bsm _
          refine (ih hd.free hd.hint hd.lost.subset (.inl hd.lost)).mono ?_ fun _ _ h => h
          rintro r ct' ⟨hr, ⟨-, rfl⟩ | hd'⟩
          · exact ⟨hr, .inr hd⟩
          · exact ⟨hr, .inr hd'⟩
        · intro _ bsm _
          exact .inr hd.lost
    · exact ⟨rfl, .inl ⟨by omega, rfl⟩⟩

/-- A refill is due. -/
def RefillDue (ct : Container τ) : Prop := ct.baseBlk = 0 ∨ ct.bsm.totalFreeBlocks ≤ minBlkNum

/-- Without a refill `reserve_base_space` does nothing. -/
theorem reserveBaseSpace_idle {fuel : ℕ} {ct : Container τ} (h : ¬ RefillDue ct) :
    Ends (reserveBaseSpace ops fuel) ct (fun r ct' => r = 0 ∧ ct' = ct) (fun e _ => e.stops = true) := by
  obtain ⟨hbase, hlow⟩ := not_or.mp h
  unfold reserveBaseSpace
  refine Ends.bind ?_
  rw [ends_get, if_neg hbase]
  cases fuel with
  | zero => exact rfl
  | succ fuel =>
    unfold refillBase
    refine Ends.bind ?_
    rw [ends_get, if_neg hlow]
    exact ⟨rfl, rfl⟩

/-- With one it takes blocks out of `sm`. -/
theorem reserveBaseSpace_due (hm : OrderedMap ops exts pos) (hw : Window lo hi) (fuel : ℕ)
    {ct : Container τ} (hdue : RefillDue ct) (hf : ExtentsIn lo hi (exts ct.sm.spaceObj))
    (hhint : ct.sm.firstFreeBlock < 2 ^ 64) (htotal : ct.sm.totalFreeBlocks ≠ 0)
    (hne : covered (exts ct.sm.spaceObj) ≠ ∅) :
    Ends (reserveBaseSpace ops fuel) ct
      (fun r ct' => r = 0 ∧ Drained exts lo hi (covered (exts ct.sm.spaceObj)) ct'.sm)
      (fun e ct' => e.stops = true ∨
        covered (exts ct'.sm.spaceObj) ⊂ covered (exts ct.sm.spaceObj)) := by
  unfold reserveBaseSpace
  refine Ends.bind ?_
  rw [ends_get]
  split_ifs with hbase
  · refine Ends.bind (ends_zoom.mpr ((smAllocSpace_drained hm hw hf hhint le_rfl le_rfl
      (by norm_num)).mono ?ok ?fail))
    case fail =>
      rintro e sm ⟨-, hnone⟩
      exact absurd hnone (not_or.mpr ⟨htotal, hne⟩)
    case ok =>
      rintro ⟨ret, start⟩ sm ⟨hret, hd⟩
      dsimp only at hret ⊢
      rw [if_neg (by omega)]
      refine Ends.bind ?_
      rw [ends_modify]
      refine (refillBase_spec hm hw fuel fuel hd.free hd.hint hd.lost.subset (.inl hd.lost)).mono ?_
        fun _ _ h => h
      rintro r ct' ⟨hr, ⟨-, rfl⟩ | hd'⟩
      · exact ⟨hr, hd⟩
      · exact ⟨hr, hd'⟩
  · refine (refillBase_spec hm hw fuel fuel hf hhint le_rfl (.inr ⟨htotal, hne⟩)).mono ?_
      fun _ _ h => h
    rintro r ct' ⟨hr, ⟨henough, -⟩ | hd⟩
    · exact absurd (hdue.resolve_left hbase) (by omega)
    · exact ⟨hr, hd⟩

/-! ## No rejection -/

/-- What a refill relies on before blocks from `start` on are freed: the blocks lie in a window, and
the counters of `sm` do not deny that something is free. -/
structure RefillReady (exts : τ → List (ℕ × ℕ)) (lo hi fuel start cnt : ℕ) (ct : Container τ) : Prop where
  window : Window lo hi
  fuel : hi < fuel
  inside : lo ≤ start ∧ start + cnt ≤ hi
  hint : ct.sm.firstFreeBlock < 2 ^ 64
  total : ct.sm.totalFreeBlocks ≠ 0

/-- After a refill the rest of the range is freed, or what is left of it is accepted. -/
theorem smFreeSpace_accepts (hm : OrderedMap ops exts pos) {fuel start cnt : ℕ} {sm : SpaceManager τ}
    (hw : Window lo hi) (hfuel : hi < fuel) (hinside : lo ≤ start ∧ start + cnt ≤ hi)
    (hhi : hi + 2 ^ 32 ≤ 2 ^ 64) (hcnt : cnt < 2 ^ 32) (hf : ExtentsIn lo hi (exts sm.spaceObj)) :
    Ends (smFreeSpace ops fuel start cnt) sm (fun _ _ => True) (fun _ _ => False) := by
  by_cases hmeet : MeetsFree (exts sm.spaceObj) start cnt
  · exact (smFreeSpace_meets hm hhi hf hcnt hmeet).mono (fun _ _ _ => trivial) fun _ _ h => h
  · have hdisj : Disjoint (Set.Ico start (start + cnt)) (covered (exts sm.spaceObj)) :=
      Set.disjoint_iff_inter_eq_empty.mpr (Set.not_nonempty_iff_eq_empty.mp hmeet)
    unfold smFreeSpace
    refine Ends.bind (ends_zoom.mpr
      ((freeSpace_window hm hw hfuel hf hinside.1 hinside.2 hdisj).mono ?_ fun _ _ h => h))
    intro _ _ _
    trivial

/-- `ofs_free_space` does not reject such a range either. -/
theorem ofsFreeSpace_not_rejected (hm : OrderedMap ops exts pos) {fuel objid start cnt : ℕ}
    {ct : Container τ} (hhi : hi + 2 ^ 32 ≤ 2 ^ 64)
    (hf : ExtentsIn lo hi (exts (ct.managerOf objid).spaceObj)) (hcnt : cnt < 2 ^ 32)
    (hmeet : MeetsFree (exts (ct.managerOf objid).spaceObj) start cnt)
    (hready : RefillDue ct → RefillReady exts lo hi fuel start cnt ct) :
    ¬ Rejected id (fun ct => (ct.managerOf objid).view exts) (ofsFreeSpace ops fuel objid start cnt) ct := by
  refine not_rejected ?_
  unfold ofsFreeSpace
  by_cases hbase : objid = baseObjId
  · rw [if_pos hbase]
    refine Ends.bind ?_
    rw [ends_get]
    refine Ends.bind (ends_assertThat.mpr ⟨fun _ => ?_, fun _ => .inl rfl⟩)
    refine Ends.bind (ends_assertThat.mpr ⟨fun _ => ?_, fun _ => .inl rfl⟩)
    exact rfl
  rw [if_neg hbase]
  by_cases hspace : objid = spaceObjId
  · rw [if_pos hspace]
    rw [Container.managerOf, if_pos hspace] at hf hmeet
    exact Ends.bind (ends_zoom.mpr ((smFreeSpace_meets hm hhi hf hcnt hmeet).mono
      (fun _ _ _ => rfl) fun _ _ h => h.elim))
  rw [if_neg hspace]
  rw [Container.managerOf, if_neg hspace] at hf hmeet
  by_cases hdue : RefillDue ct
  · have hr := hready hdue
    have hne : covered (exts ct.sm.spaceObj) ≠ ∅ :=
      (hmeet.mono Set.inter_subset_right).ne_empty
    refine Ends.bind ((reserveBaseSpace_due hm hr.window fuel hdue hf hr.hint hr.total hne).mono ?ok ?fail)
    case ok =>
      rintro r ct' ⟨rfl, hd⟩
      rw [if_neg (by omega)]
      exact Ends.bind (ends_zoom.mpr ((smFreeSpace_accepts hm hr.window hr.fuel hr.inside hhi hcnt
        hd.free).mono (fun _ _ _ => rfl) fun _ _ h => h.elim))
    case fail =>
      rintro e ct' (hstop | hlost)
      · exact .inl hstop
      · refine .inr fun heq => hlost.ne ?_
        simp only [Container.managerOf, if_neg hspace, SpaceManager.view, Prod.mk.injEq] at heq
        rw [heq.1]
  · refine Ends.bind ((reserveBaseSpace_idle hdue).mono ?_ fun _ _ h => .inl h)
    rintro r ct' ⟨rfl, rfl⟩
    rw [if_neg (by omega)]
    exact Ends.bind (ends_zoom.mpr ((smFreeSpace_meets hm hhi hf hcnt hmeet).mono
      (fun _ _ _ => rfl) fun _ _ h => h.elim))

/-- No range that meets a free extent is rejected: not by `free_space`, not by `sm_free_space`, and
not by `ofs_free_space`. -/
theorem free_again_not_rejected (hm : OrderedMap ops exts pos) {fuel start cnt : ℕ}
    (hhi : hi + 2 ^ 32 ≤ 2 ^ 64) (hpos : 1 ≤ cnt) (hcnt : cnt < 2 ^ 32) :
    (∀ t, ExtentsIn lo hi (exts t) → MeetsFree (exts t) start cnt →
      ¬ Rejected (fun _ => 0) exts (freeSpace ops fuel start cnt) t) ∧
    (∀ sm : SpaceManager τ, ExtentsIn lo hi (exts sm.spaceObj) → sm.totalFreeBlocks < 2 ^ 64 →
      MeetsFree (exts sm.spaceObj) start cnt →
      ¬ Rejected (fun _ => 0) (SpaceManager.view exts) (smFreeSpace ops fuel start cnt) sm ∧
      Ends (smFreeSpace ops fuel start cnt) sm
        (fun _ sm' => exts sm'.spaceObj = exts sm.spaceObj ∧
          sm'.totalFreeBlocks ≠ sm.totalFreeBlocks) (fun _ _ => False)) ∧
    (∀ objid (ct : Container τ), ExtentsIn lo hi (exts (ct.managerOf objid).spaceObj) →
      MeetsFree (exts (ct.managerOf objid).spaceObj) start cnt →
      (RefillDue ct → RefillReady exts lo hi fuel start cnt ct) →
      ¬ Rejected id (fun ct => (ct.managerOf objid).view exts)
        (ofsFreeSpace ops fuel objid start cnt) ct) := by
  refine ⟨fun t hf hmeet => ?_, fun sm hf htotal hmeet => ⟨?_, ?_⟩, fun objid ct hf hmeet hready => ?_⟩
  · exact not_rejected ((freeSpace_meets hm hhi hf hcnt hmeet).mono (fun _ _ _ => rfl)
      fun _ _ h => h.elim)
  · exact not_rejected ((smFreeSpace_meets hm hhi hf hcnt hmeet).mono (fun _ _ _ => rfl)
      fun _ _ h => h.elim)
  · refine (smFreeSpace_meets hm hhi hf hcnt hmeet).mono (fun _ sm' h => ⟨h.1, ?_⟩) fun _ _ h => h
    rw [h.2]
    unfold uint64
    omega
  · exact ofsFreeSpace_not_rejected hm hhi hf hcnt hmeet hready

/-- A container with the free extents `[4, 10)` and `[20, 23)` whose `bsm` is empty. -/
def twoExtentsContainer : Container ListTree where
  bsm := ofsInitSm { extents := [], cursor := 0 } 0 0
  sm := ofsInitSm twoExtents 4 9
  baseBlk := 0

/-- Freeing the blocks 5 and 6 once more, in the tree, in `sm` and for object 200. -/
theorem free_again_not_rejected_twoExtents :
    ¬ Rejected (fun _ => 0) ListTree.exts (freeSpace ListTree.ops (2 ^ 31 + 1) 5 2) twoExtents ∧
    ¬ Rejected (fun _ => 0) (SpaceManager.view ListTree.exts)
      (smFreeSpace ListTree.ops (2 ^ 31 + 1) 5 2) twoExtentsContainer.sm ∧
    ¬ Rejected id (fun ct => (ct.managerOf 200).view ListTree.exts)
      (ofsFreeSpace ListTree.ops (2 ^ 31 + 1) 200 5 2) twoExtentsContainer := by
  have hf : ExtentsIn 0 (2 ^ 31) twoExtents.exts := freeExtents_twoExtents
  have hmeet : MeetsFree twoExtents.exts 5 2 :=
    ⟨5, by simp, (4, 6), by simp [twoExtents, ListTree.exts], by simp⟩
  have hready : RefillReady ListTree.exts 0 (2 ^ 31) (2 ^ 31 + 1) 5 2 twoExtentsContainer :=
    ⟨window_two_pow_31, by norm_num, by norm_num, by decide, by decide⟩
  obtain ⟨htree, hsm, hct⟩ := @free_again_not_rejected _ _ _ _ 0 (2 ^ 31)
    ListTree.listTree_orderedMap (2 ^ 31 + 1) 5 2 (by norm_num) (by norm_num) (by norm_num)
  exact ⟨htree twoExtents hf hmeet, (hsm twoExtentsContainer.sm hf (by decide) hmeet).1,
    hct 200 twoExtentsContainer hf hmeet fun _ => hready⟩

/-- The call returns `0`, and the space manager over that tree counts two blocks more. -/
theorem free_again_accepted :
    freeSpace ListTree.ops 1 5 2 twoExtents = .ok () twoExtents ∧
    ¬ Rejected (fun _ => 0) ListTree.exts (freeSpace ListTree.ops 1 5 2) twoExtents ∧
    ∃ sm', smFreeSpace ListTree.ops 1 5 2 twoExtentsContainer.sm = .ok () sm' ∧
      sm'.spaceObj.exts = twoExtents.exts ∧ sm'.totalFreeBlocks = 11 := by
  refine ⟨rfl, fun h => ?_, _, rfl, rfl, rfl⟩
  have hneg : (0 : ℤ) < 0 ∧ twoExtents.exts = twoExtents.exts := h
  exact absurd hneg.1 (lt_irrefl 0)

end IndexFs.Space
