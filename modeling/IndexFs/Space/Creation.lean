import IndexFs.Container.Registry
import IndexFs.Object.Manager
import IndexFs.Space.Lengths
import IndexFs.Tree.SmallRoot

/-!
# Creating a container

`create_system_objects` of `object_system/ofs_container_manager.c` (lines 190–250) and what
`ofs_create_container` does around it. The space managers work on the trees of the base object and
of the space object, and making the third object is the first allocation.

Results:

* `smAllocSpace_run`, `smFreeSpace_empty`: the space managers, while their trees have one extent.
* `reserveBaseSpace_new`: the base object gets ten blocks, or all that are there.
* `creation_exact`: a container is made as it should be exactly if it has fifteen blocks or more.
-/

namespace IndexFs.Space

open IndexFs.Collate IndexFs.Tree
open IndexFs.Object (baseObjInode spaceObjInode objidObjId)

variable {σ : Type}

/-! ## Model of the code -/

/-- The operations of `ofs_btree.c` on the tree of an object. -/
def treeOps (env : TreeEnv σ) : TreeOps (ObjectTree σ) where
  indexSearchKeyNolock := Tree.indexSearchKeyNolock env
  walkTree := Tree.walkTree env
  treeRemoveIe := Tree.treeRemoveIe env
  indexInsertKeyNolock := Tree.indexInsertKeyNolock env
  ie t := match currentIe t with
    | .ok ie _ => ie
    | .error _ _ => beginIe

/-- The fields of `container_handle_t` that `create_system_objects` sets: of the super block the counts of
blocks and the numbers of the inodes. -/
structure NewContainer (σ : Type) where
  sb : SuperBlock
  baseInodeNo : ℕ
  spaceInodeNo : ℕ
  objidInodeNo : ℕ
  space : Container (ObjectTree σ)
  idObj : ObjectTree σ

/-- A call that works on `bsm`, `sm` and `base_blk`. -/
def onSpace {α : Type} (x : EStateM ErrorCode (Container (ObjectTree σ)) α) :
    EStateM ErrorCode (NewContainer σ) α :=
  zoom NewContainer.space (fun space ct => { ct with space }) x

variable (env : TreeEnv σ) (fuel : ℕ) (c : σ)

/-- The base object (lines 195–208). -/
def createBaseObject : EStateM ErrorCode (NewContainer σ) Unit :=
  modify fun ct =>
    { ct with
      baseInodeNo := baseObjInode
      space := { ct.space with baseBlk := 0, bsm := ofsInitSm (newTree baseObjInode c) 0 0 } }

/-- The space object (lines 210–232). -/
def createSpaceObject : EStateM ErrorCode (NewContainer σ) Unit := do
  let sb := (← get).sb.takeInodes
  modify fun ct =>
    { ct with
      sb
      spaceInodeNo := spaceObjInode
      space := { ct.space with sm := ofsInitSm (newTree spaceObjInode c) sb.firstFreeBlock sb.freeBlocks } }
  onSpace (onSm (ofsInitFreeSpace (treeOps env) sb.firstFreeBlock sb.freeBlocks))

/-- The objid object (lines 234–245): `create_object` allocates the block of its inode. -/
def createObjidObject : EStateM ErrorCode (NewContainer σ) ℤ := do
  let (ret, inodeNo) ← onSpace (ofsAllocSpace (treeOps env) fuel objidObjId 1)
  if ret < 0 then return ret
  else
    modify fun ct => { ct with objidInodeNo := inodeNo, idObj := newTree inodeNo c }
    return 0

/-- `create_system_objects` (lines 190–250): the return code. -/
def createSystemObjects : EStateM ErrorCode (NewContainer σ) ℤ := do
  createBaseObject c
  createSpaceObject env c
  createObjidObject env fuel c

/-! ## Trees of extents -/

section Proofs

variable {env} {fuel} {c} {a n : ℕ} {t : ObjectTree σ}

/-- The tree has the extents `l`, and at most one. -/
def HoldsExtents (l : List (ℕ × ℕ)) (t : ObjectTree σ) : Prop :=
  SmallRoot (l.map fun e => (osU64ToBstr e.1, osU64ToBstr e.2)) t

theorem keyValueOk_bstr (ha : a < 2 ^ 64) (hn : n < 2 ^ 64) : KeyValueOk (osU64ToBstr a, osU64ToBstr n) := by
  obtain ⟨h1, h2⟩ := osU64ToBstr_length ha
  obtain ⟨h3, h4⟩ := osU64ToBstr_length hn
  exact ⟨h1, h2.trans (by decide), h4.trans (by decide)⟩

theorem bstr_ne_nil (ha : a < 2 ^ 64) : osU64ToBstr a ≠ [] := List.ne_nil_of_length_pos (osU64ToBstr_length ha).1

theorem HoldsExtents.ie (h : HoldsExtents [(a, n)] t) (hat : AtFirst t) :
    (treeOps env).ie t = firstIe [(osU64ToBstr a, osU64ToBstr n)] := by
  change (match currentIe t with | .ok ie _ => ie | .error _ _ => beginIe) = _
  rw [SmallRoot.currentIe h hat]
  rfl

/-- `os_collate_extent` finds an extent for its own first block. -/
theorem collateKey_own {cnt : ℕ} (hcr : env.cr = .extent) (hn : 1 ≤ n) (hcnt : 1 ≤ cnt)
    (ha : a + n < 2 ^ 31) (hc : a + cnt < 2 ^ 32) :
    collateKey env.cr (firstIe [(osU64ToBstr a, osU64ToBstr n)]) (osU64ToBstr a) (osU64ToBstr cnt) = .ok 0 := by
  rw [hcr]
  unfold collateKey
  rw [if_neg (bstr_ne_nil (by omega))]
  change osCollateExtent (osU64ToBstr a) (osU64ToBstr n) (osU64ToBstr a) (osU64ToBstr cnt) = .ok 0
  rw [osCollateExtent_bstr (by omega) (by omega) (by omega) (by omega), if_neg (by omega), if_neg (by omega)]

/-- One extent, or none of no blocks. -/
def extentFrom (a n : ℕ) : List (ℕ × ℕ) := if n = 0 then [] else [(a, n)]

theorem insertExtent_empty (h : HoldsExtents [] t) (ha : a < 2 ^ 64) (hn : n < 2 ^ 64) :
    Ends (insertExtent (treeOps env) a n) t (fun _ t' => HoldsExtents [(a, n)] t') fun _ _ => False :=
  insert_empty h (keyValueOk_bstr ha hn)

/-- An allocation from the only extent, at its first block. -/
theorem allocSpace_run (cnt : ℕ) (hcr : env.cr = .extent) (h : HoldsExtents [(a, n)] t) (hn : 1 ≤ n)
    (hcnt : 1 ≤ cnt) (ha : a + n < 2 ^ 31) (hc : a + cnt < 2 ^ 32) :
    Ends (allocSpace (treeOps env) a cnt) t
      (fun r t' => r = (((min cnt n : ℕ) : ℤ), a) ∧ HoldsExtents (extentFrom (a + min cnt n) (n - min cnt n)) t')
      fun _ _ => False := by
  have hlen : uint32 n = n := Nat.mod_eq_of_lt (by omega)
  have hend : uint64 (a + n) = a + n := Nat.mod_eq_of_lt (by omega)
  have hendBlk : uint64 (a + cnt) = a + cnt := Nat.mod_eq_of_lt (by omega)
  unfold allocSpace assertThat
  rw [if_pos (by omega), ends_bind, ends_pure, ends_bind]
  -- the search finds the extent
  unfold allocSpaceSearch
  refine Ends.bind (Ends.codeOf ((indexSearch_only h (bstr_ne_nil (by omega))
    (collateKey_own hcr hn hcnt ha hc)).mono (fun _ t' hpost => ?_) fun _ _ h => h.elim))
  obtain ⟨h', hat⟩ := hpost
  have hie : (treeOps env).ie t' = firstIe [(osU64ToBstr a, osU64ToBstr n)] := HoldsExtents.ie h' hat
  have hon : OnEntry (treeOps env) t' (a, n) := by
    refine ⟨by rw [hie]; rfl, ?_, ?_⟩
    · rw [hie]
      exact osBstrToU64_osU64ToBstr (by omega)
    · rw [hie]
      exact osBstrToU64_osU64ToBstr (by omega)
  dsimp only
  rw [ends_pure, ends_bind, ieAddr_spec hon, ends_bind, ieLen_spec hon]
  dsimp only
  rw [hlen, hend, if_pos (by omega), ends_bind, ends_pure]
  refine (remove_only h' hat).seq fun _ t₁ hempty => ?_
  rw [if_pos le_rfl]
  unfold allocSpaceFront extentFrom
  dsimp only
  rw [hendBlk]
  by_cases hless : cnt < n
  · have hback : uint64Sub (a + cnt) a = cnt := by unfold uint64Sub; omega
    have hrest : uint64Sub (a + n) (a + cnt) = n - cnt := by unfold uint64Sub; omega
    rw [if_pos (by omega), hback, hrest, int32_of_lt (by omega), min_eq_left hless.le, if_neg (by omega)]
    exact (insertExtent_empty hempty (by omega) (by omega)).seq fun _ t₂ hins => ⟨rfl, hins⟩
  · rw [if_neg (by omega), int32_of_lt (by omega), min_eq_right (by omega), if_pos (by omega)]
    exact ⟨rfl, hempty⟩

/-- Blocks put into an empty tree. -/
theorem freeSpace_empty {cnt : ℕ} (h : HoldsExtents [] t) (ha : a < 2 ^ 64) (hc : cnt < 2 ^ 64) :
    Ends (freeSpace (treeOps env) (fuel + 1) a cnt) t (fun _ t' => HoldsExtents [(a, cnt)] t') fun _ _ => False := by
  unfold freeSpace
  refine Ends.bind (Ends.codeOf ((indexSearch_empty h (bstr_ne_nil ha)).mono (fun _ _ h => h.elim)
    fun e t₁ hpost => ?_))
  obtain ⟨rfl, h₁, hat⟩ := hpost
  have hie : ((treeOps env).ie t₁).isEnd = true := by
    change (match currentIe t₁ with | .ok ie _ => ie | .error _ _ => beginIe).isEnd = true
    rw [SmallRoot.currentIe h₁ hat]
    rfl
  refine ⟨rfl, ?_⟩
  dsimp only
  rw [if_neg (by simp)]
  unfold freeSpaceNext freeSpacePrev
  rw [ends_bind, ends_bind, ends_get, if_pos hie, ends_pure]
  refine Ends.bind (Ends.bind (Ends.codeOf ((walk_prev_empty h₁ hat).mono (fun _ _ h => h.elim) fun e t₂ hpost => ?_)))
  obtain ⟨rfl, h₂⟩ := hpost
  exact ⟨rfl, insertExtent_empty h₂ ha hc⟩

/-! ## The space managers -/

/-- `n` blocks from `a` on are left to hand out. -/
structure Run (a n : ℕ) (sm : SpaceManager (ObjectTree σ)) : Prop where
  tree : HoldsExtents (extentFrom a n) sm.spaceObj
  first : sm.firstFreeBlock = a
  total : sm.totalFreeBlocks = n

variable {sm : SpaceManager (ObjectTree σ)}

theorem smAllocSpace_run (cnt : ℕ) (hcr : env.cr = .extent) (h : Run a n sm) (hn : 1 ≤ n) (hcnt : 1 ≤ cnt)
    (ha : a + n < 2 ^ 31) (hc : a + cnt < 2 ^ 32) :
    Ends (smAllocSpace (treeOps env) cnt) sm
      (fun r sm' => r = (((min cnt n : ℕ) : ℤ), a) ∧ Run (a + min cnt n) (n - min cnt n) sm') fun _ _ => False := by
  have htree : HoldsExtents [(a, n)] sm.spaceObj := by
    have := h.tree
    rwa [extentFrom, if_neg (by omega)] at this
  have halloc := allocSpace_run cnt hcr htree hn hcnt ha hc
  unfold smAllocSpace
  rw [ends_bind, ends_get, h.total, h.first, if_neg (by omega)]
  refine Ends.bind (Ends.codeOf (ends_zoom.mpr (halloc.mono (fun r t' hpost => ?_) fun _ _ h => h.elim)))
  obtain ⟨rfl, htree'⟩ := hpost
  dsimp only
  rw [if_neg (by omega), ends_bind, ends_modify, ends_pure]
  have hfirst : uint64 (a + min cnt n) = a + min cnt n := Nat.mod_eq_of_lt (by omega)
  refine ⟨rfl, htree', hfirst, ?_⟩
  change (if sm.totalFreeBlocks < min cnt n then sm.totalFreeBlocks else sm.totalFreeBlocks - min cnt n) = _
  rw [h.total, if_neg (by omega)]

theorem smAllocSpace_dry {cnt : ℕ} (h : Run a 0 sm) :
    Ends (smAllocSpace (treeOps env) cnt) sm (fun _ _ => False) (fun e _ => e = .noFreeBlocks) := by
  unfold smAllocSpace
  rw [ends_bind, ends_get, if_pos h.total]
  exact rfl

/-- Blocks put into a space manager that has none. -/
theorem smFreeSpace_empty {cnt : ℕ} (h : Run 0 0 sm) (ha : a < 2 ^ 64) (hc : cnt < 2 ^ 64) :
    Ends (smFreeSpace (treeOps env) (fuel + 1) a cnt) sm
      (fun _ sm' => HoldsExtents [(a, cnt)] sm'.spaceObj ∧ sm'.totalFreeBlocks = cnt) fun _ _ => False := by
  unfold smFreeSpace
  refine Ends.bind (ends_zoom.mpr ((freeSpace_empty h.tree ha hc).mono (fun _ t' htree => ?_) fun _ _ h => h))
  rw [ends_modify]
  refine ⟨htree, ?_⟩
  change uint64 (sm.totalFreeBlocks + cnt) = cnt
  rw [h.total, Nat.zero_add]
  exact Nat.mod_eq_of_lt hc

/-- The first `reserve_base_space`: of the `total` blocks it takes the first free one for `base_blk` and
up to ten more for the base object. -/
theorem reserveBaseSpace_new {total : ℕ} {ct : Container (ObjectTree σ)} (hcr : env.cr = .extent)
    (hbsm : Run 0 0 ct.bsm) (hsm : Run 3 (total - 3) ct.sm) (hblk : ct.baseBlk = 0) (hmin : 10 ≤ total)
    (hmax : total < 2 ^ 31) :
    Ends (reserveBaseSpace (treeOps env) (fuel + 2)) ct
      (fun ret ct' => ret = 0 ∧ ct'.baseBlk = 3 ∧ HoldsExtents [(4, min 10 (total - 4))] ct'.bsm.spaceObj ∧
        ct'.bsm.totalFreeBlocks = min 10 (total - 4) ∧
        Run (4 + min 10 (total - 4)) (total - 4 - min 10 (total - 4)) ct'.sm) fun _ _ => False := by
  have hone : min 1 (total - 3) = 1 := by omega
  have hcnt : uint32 (uint64Sub maxBlkNum 0) = 10 := by decide
  unfold reserveBaseSpace
  rw [ends_bind, ends_get, if_pos hblk]
  refine Ends.bind (ends_zoom.mpr ((smAllocSpace_run 1 hcr hsm (by omega) le_rfl (by omega)
    (by omega)).mono (fun r sm hpost => ?_) fun _ _ h => h))
  obtain ⟨rfl, hsm₁⟩ := hpost
  rw [hone, (by omega : total - 3 - 1 = total - 4)] at hsm₁
  dsimp only
  rw [if_neg (by omega), ends_bind, ends_modify]
  -- the first round of the loop moves the blocks, the second one finds enough
  unfold refillBase
  rw [ends_bind, ends_get]
  dsimp only
  rw [hbsm.total, if_pos (by decide), hcnt]
  refine Ends.bind (ends_zoom.mpr ((smAllocSpace_run 10 hcr hsm₁ (by omega) (by omega) (by omega)
    (by omega)).mono (fun r sm₂ hpost => ?_) fun _ _ h => h))
  obtain ⟨rfl, hsm₂⟩ := hpost
  dsimp only
  rw [if_neg (by omega), Int.toNat_natCast]
  refine Ends.bind (ends_zoom.mpr ((smFreeSpace_empty hbsm (by omega) (by omega)).mono (fun _ bsm hpost => ?_)
    fun _ _ h => h))
  obtain ⟨htree, htotal⟩ := hpost
  unfold refillBase
  rw [ends_bind, ends_get]
  dsimp only
  rw [htotal, if_neg (by unfold minBlkNum; omega), ends_pure]
  exact ⟨rfl, rfl, htree, htotal, hsm₂⟩

/-- The blocks of the space managers and of `base_blk`, the inodes and the super block. -/
def blocksOf (ct : NewContainer σ) (base space : List (ℕ × ℕ)) : List (Set ℕ) :=
  [{0}, {ct.baseInodeNo}, {ct.spaceInodeNo}, {ct.objidInodeNo}, {ct.space.baseBlk}, covered base, covered space]

/-- The free blocks are those of the two trees, as many as the space managers count, with enough of them
for the base object, and each block of the container has one place. -/
structure Partitioned (total : ℕ) (ct : NewContainer σ) (base space : List (ℕ × ℕ)) : Prop where
  base_tree : HoldsExtents base ct.space.bsm.spaceObj
  space_tree : HoldsExtents space ct.space.sm.spaceObj
  base_count : ct.space.bsm.totalFreeBlocks = lengths base
  space_count : ct.space.sm.totalFreeBlocks = lengths space
  base_many : minBlkNum < ct.space.bsm.totalFreeBlocks
  base_blk : ct.space.baseBlk ≠ 0
  disjoint : (blocksOf ct base space).Pairwise Disjoint
  all : ∀ b, (∃ s ∈ blocksOf ct base space, b ∈ s) ↔ b < total

/-- The container before the third object. -/
theorem createSpaceObject_run {total : ℕ} {ct : NewContainer σ}
    (hsb : ct.sb.takeInodes.firstFreeBlock = 3 ∧ ct.sb.takeInodes.freeBlocks = total - 3) (hmin : 10 ≤ total)
    (hmax : total < 2 ^ 31) :
    Ends (do createBaseObject c; createSpaceObject env c) ct
      (fun _ ct' => ct'.baseInodeNo = 1 ∧ ct'.spaceInodeNo = 2 ∧ ct'.space.baseBlk = 0 ∧ Run 0 0 ct'.space.bsm ∧
        Run 3 (total - 3) ct'.space.sm) fun _ _ => False := by
  obtain ⟨hfirst, hfree⟩ := hsb
  unfold createBaseObject createSpaceObject
  rw [ends_bind, ends_modify, ends_bind, ends_get]
  dsimp only
  rw [hfirst, hfree, ends_bind, ends_modify]
  refine ends_zoom.mpr (ends_zoom.mpr (ends_zoom.mpr ?_))
  refine (insertExtent_empty (newTree_smallRoot _ _) (by omega) (by omega)).mono (fun _ t htree => ?_) fun _ _ h => h
  refine ⟨rfl, rfl, rfl, ⟨newTree_smallRoot _ _, rfl, rfl⟩, ?_, rfl, rfl⟩
  rw [extentFrom, if_neg (by omega)]
  exact htree

theorem mem_blocksOf {ct : NewContainer σ} {base space : List (ℕ × ℕ)} (b : ℕ) :
    (∃ s ∈ blocksOf ct base space, b ∈ s) ↔ b = 0 ∨ b = ct.baseInodeNo ∨ b = ct.spaceInodeNo ∨
      b = ct.objidInodeNo ∨ b = ct.space.baseBlk ∨ b ∈ covered base ∨ b ∈ covered space := by
  simp [blocksOf]

theorem covered_extentFrom (a n : ℕ) : covered (extentFrom a n) = Set.Ico a (a + n) := by
  unfold extentFrom
  split_ifs with h
  · simp [h]
  · simp

theorem lengths_extentFrom (a n : ℕ) : lengths (extentFrom a n) = n := by
  unfold extentFrom
  split_ifs with h
  · exact h.symm
  · simp [lengths]

/-- What a container with room for all objects looks like. -/
theorem partitioned_new {total : ℕ} {ct : NewContainer σ} (hmore : 15 ≤ total) (hbase : ct.baseInodeNo = 1)
    (hspace : ct.spaceInodeNo = 2) (hobjid : ct.objidInodeNo = 14) (hblk : ct.space.baseBlk = 3)
    (htree : HoldsExtents [(4, 10)] ct.space.bsm.spaceObj) (htotal : ct.space.bsm.totalFreeBlocks = 10)
    (hsm : Run (4 + 10 + 1) (total - 4 - 10 - 1) ct.space.sm) :
    Partitioned total ct [(4, 10)] (extentFrom (4 + 10 + 1) (total - 4 - 10 - 1)) where
  base_tree := htree
  space_tree := hsm.tree
  base_count := htotal
  space_count := by rw [hsm.total, lengths_extentFrom]
  base_many := by
    rw [htotal]
    decide
  base_blk := by omega
  disjoint := by
    unfold blocksOf
    rw [hbase, hspace, hobjid, hblk, covered_extentFrom]
    simp only [covered_cons, covered_nil, Set.union_empty, List.pairwise_cons, List.mem_cons, List.not_mem_nil,
      or_false, forall_eq_or_imp, forall_eq, Set.disjoint_left, Set.mem_singleton_iff, Set.mem_Ico]
    refine ⟨?_, ?_, ?_, ?_, ?_, ?_, ?_⟩
    all_goals grind
  all b := by
    rw [mem_blocksOf, hbase, hspace, hobjid, hblk, covered_extentFrom]
    simp only [covered_cons, covered_nil, Set.union_empty, Set.mem_Ico]
    omega

/-- Making the objects, for a super block with ten blocks or more. -/
theorem createSystemObjects_run (fuel : ℕ) (c : σ) (total : ℕ) {ct : NewContainer σ} (hcr : env.cr = .extent)
    (hsb : ct.sb.takeInodes.firstFreeBlock = 3 ∧ ct.sb.takeInodes.freeBlocks = total - 3) (hmin : 10 ≤ total)
    (hmax : total < 2 ^ 31) :
    Ends (createSystemObjects env (fuel + 2) c) ct
      (fun ret ct' => ret = 0 ∧ 15 ≤ total ∧ ∃ base space, Partitioned total ct' base space)
      (fun e _ => e = .noFreeBlocks ∧ total < 15) := by
  have hobjid : ¬ objidObjId = baseObjId ∧ ¬ objidObjId = spaceObjId := by decide
  unfold createSystemObjects
  rw [← bind_assoc]
  refine (createSpaceObject_run hsb hmin hmax).seq' (fun _ ct₁ hpost => ?_) fun _ _ h => h.elim
  obtain ⟨hbase, hspace, hblk, hbsm, hsm⟩ := hpost
  unfold createObjidObject ofsAllocSpace
  rw [if_neg hobjid.1, if_neg hobjid.2]
  refine Ends.bind (ends_zoom.mpr ?_)
  refine (reserveBaseSpace_new hcr hbsm hsm hblk hmin hmax).seq' (fun ret space hres => ?_) fun _ _ h => h.elim
  obtain ⟨rfl, hblk', htree, htotal, hrest⟩ := hres
  rw [if_neg (by decide)]
  refine ends_zoom.mpr ?_
  by_cases hmore : 15 ≤ total
  · have hten : min 10 (total - 4) = 10 := by omega
    rw [hten] at htree htotal hrest
    refine (smAllocSpace_run 1 hcr hrest (by omega) le_rfl (by omega) (by omega)).mono
      (fun r sm hpost => ?_) fun _ _ h => h.elim
    obtain ⟨rfl, hsm'⟩ := hpost
    have hone : min 1 (total - 4 - 10) = 1 := by omega
    rw [hone] at hsm' ⊢
    dsimp only
    rw [if_neg (by decide), ends_bind, ends_modify, ends_pure]
    exact ⟨rfl, hmore, [(4, 10)], extentFrom (4 + 10 + 1) (total - 4 - 10 - 1), partitioned_new hmore hbase hspace
      rfl hblk' htree htotal hsm'⟩
  · have hnone : total - 4 - min 10 (total - 4) = 0 := by omega
    rw [hnone] at hrest
    exact (smAllocSpace_dry hrest).mono (fun _ _ h => h.elim) fun e _ h => ⟨h, not_le.mp hmore⟩

/-- The same, on the result. -/
theorem createSystemObjects_ends (fuel : ℕ) (c : σ) (total : ℕ) {ct : NewContainer σ} (hcr : env.cr = .extent)
    (hsb : ct.sb.takeInodes.firstFreeBlock = 3 ∧ ct.sb.takeInodes.freeBlocks = total - 3) (hmin : 10 ≤ total)
    (hmax : total < 2 ^ 31) :
    (15 ≤ total ∧ ∃ ct' base space, createSystemObjects env (fuel + 2) c ct = .ok 0 ct' ∧
      Partitioned total ct' base space) ∨
      total < 15 ∧ ∃ ct', createSystemObjects env (fuel + 2) c ct = .error .noFreeBlocks ct' := by
  rcases ends_iff.mp (createSystemObjects_run fuel c total hcr hsb hmin hmax) with
    ⟨ret, ct', hok, rfl, hmore, base, space, hpart⟩ | ⟨e, ct', herr, rfl, hless⟩
  · exact .inl ⟨hmore, ct', base, space, hok, hpart⟩
  · exact .inr ⟨hless, ct', herr⟩

/-! ## `ofs_create_container` -/

section Create

open ContainerManager (Below Layer System avlFind ofsNameSize ofsCreateContainer)

/-- The disk and the memory work, and making the system objects ends as `run` does. -/
structure Works (below : Below) (run : EStateM.Result ErrorCode (NewContainer σ) ℤ) : Prop where
  memory : below.memory = true
  others : ∀ l, l ≠ Layer.createSystemObjects → below.code l = none
  systemObjects : below.code .createSystemObjects = none ↔ ∃ ret ct, run = .ok ret ct ∧ 0 ≤ ret

theorem layer_code {below : Below} {ct : ℕ} {l : Layer} {s : System} :
    Ends (ContainerManager.layer below ct l) s (fun _ _ => below.code l = none) fun _ _ => below.code l ≠ none := by
  unfold ContainerManager.layer
  cases below.code l with
  | none => rfl
  | some e => exact Option.some_ne_none e

/-- `ofs_create_container` under a new name fails if making the system objects does. -/
theorem ofsCreateContainer_works {below : Below} {run : EStateM.Result ErrorCode (NewContainer σ) ℤ}
    (h : Works below run) {s : System} {name : Bytes} (hname : name.length < ofsNameSize)
    (hnew : avlFind name s.registry = .ok none) {totalSectors : ℕ} (hpos : totalSectors ≠ 0) :
    Ends (ofsCreateContainer below name totalSectors) s
      (fun _ _ => below.code .createSystemObjects = none) (fun _ _ => below.code .createSystemObjects ≠ none) := by
  have hinit : Ends (ContainerManager.initContainerResource below name) s (fun _ _ => True) fun _ _ => False := by
    unfold ContainerManager.initContainerResource
    rw [h.memory, List.take_of_length_le hname.le]
    show Ends (get >>= fun s => _) s _ _
    rw [ends_bind, ends_get, ends_bind, hnew]
    trivial
  unfold ofsCreateContainer
  rw [if_neg hpos, if_neg (not_le.mpr hname), ends_bind, ends_get, ends_bind, hnew, ends_fromExcept_ok]
  refine hinit.seq' (fun ct s₁ _ => ?_) fun _ _ h => h.elim
  refine layer_code.seq' (fun _ s₂ _ => ?_) fun _ _ hcode => absurd (h.others _ (by decide)) hcode
  refine layer_code.seq' (fun _ s₃ _ => ?_) fun _ _ hcode => absurd (h.others _ (by decide)) hcode
  unfold ContainerManager.setDisk
  rw [ends_bind, ends_modify]
  refine layer_code.seq' (fun _ s₄ _ => ?_) fun _ _ hcode => absurd (h.others _ (by decide)) hcode
  refine layer_code.seq fun _ s₅ hcode => ?_
  exact layer_code.seq' (fun _ _ _ => hcode) fun _ _ hcode => absurd (h.others _ (by decide)) hcode

/-- A size that `init_super_block` takes is enough exactly if it has fifteen blocks. -/
theorem creation_exact (hcr : env.cr = .extent) (hfuel : 2 ≤ fuel) {totalSectors : ℕ} (h64 : totalSectors < 2 ^ 64)
    {sb : SuperBlock} (hsb : initSuperBlock totalSectors bytesPerBlockShift = .ok sb) (hmax : sb.totalBlocks < 2 ^ 31)
    {ct : NewContainer σ} (hct : ct.sb = sb) {below : Below} (hbelow : Works below (createSystemObjects env fuel c ct))
    {s : System} {name : Bytes} (hname : name.length < ofsNameSize) (hnew : avlFind name s.registry = .ok none) :
    ((∃ hnd s', ofsCreateContainer below name totalSectors s = .ok hnd s') ∧
      ∃ ct' base space, createSystemObjects env fuel c ct = .ok 0 ct' ∧ Partitioned sb.totalBlocks ct' base space) ↔
      15 ≤ sb.totalBlocks := by
  obtain ⟨fuel, rfl⟩ := Nat.exists_eq_add_of_le' hfuel
  obtain ⟨htotal, hmin, hfirst, hfree⟩ := initSuperBlock_spec hsb h64
  have hsb' : ct.sb.takeInodes.firstFreeBlock = 3 ∧ ct.sb.takeInodes.freeBlocks = sb.totalBlocks - 3 := by
    rw [hct]
    exact ⟨hfirst, hfree⟩
  have hpos : totalSectors ≠ 0 := by omega
  have hcreate := ofsCreateContainer_works hbelow hname hnew hpos
  rcases createSystemObjects_ends fuel c sb.totalBlocks hcr hsb' hmin hmax with
    ⟨hmore, ct', base, space, hok, hpart⟩ | ⟨hless, ct', herr⟩
  · have hnone : below.code .createSystemObjects = none := hbelow.systemObjects.mpr ⟨0, ct', hok, le_rfl⟩
    refine ⟨fun _ => hmore, fun _ => ⟨?_, ct', base, space, hok, hpart⟩⟩
    rcases ends_iff.mp hcreate with ⟨hnd, s', hcall, -⟩ | ⟨e, s', -, hcode⟩
    · exact ⟨hnd, s', hcall⟩
    · exact absurd hnone hcode
  · refine ⟨fun h => ?_, fun h => absurd h (by omega)⟩
    obtain ⟨-, ct', base, space, hok, -⟩ := h
    rw [herr] at hok
    cases hok

/-- A container with that super block before its objects are made. -/
def emptyContainer (sb : SuperBlock) : NewContainer ℕ where
  sb := sb
  baseInodeNo := 0
  spaceInodeNo := 0
  objidInodeNo := 0
  space :=
    { bsm := ofsInitSm (newTree 0 0) 0 0
      sm := ofsInitSm (newTree 0 0) 0 0
      baseBlk := 0 }
  idObj := newTree 0 0

/-- Fifteen blocks. -/
theorem creation_exact_fifteen :
    ((∃ hnd s', ofsCreateContainer ⟨true, fun _ => none⟩ [97] 120 ⟨[], 1⟩ = .ok hnd s') ∧
      ∃ ct' base space, createSystemObjects (countingEnv .extent) 2 0 (emptyContainer ⟨15, 14, 1⟩) = .ok 0 ct' ∧
        Partitioned 15 ct' base space) ↔ 15 ≤ 15 := by
  have hbelow : Works ⟨true, fun _ => none⟩
      (createSystemObjects (countingEnv .extent) 2 0 (emptyContainer ⟨15, 14, 1⟩)) := by
    refine ⟨rfl, fun _ _ => rfl, fun _ => ?_, fun _ => rfl⟩
    rcases @createSystemObjects_ends _ (countingEnv .extent) 0 0 15 (emptyContainer ⟨15, 14, 1⟩) rfl (by decide) (by norm_num) (by norm_num) with
      ⟨-, ct', -, -, hok, -⟩ | ⟨hless, -⟩
    · exact ⟨0, ct', hok, le_rfl⟩
    · exact absurd hless (lt_irrefl _)
  have hsb : initSuperBlock 120 bytesPerBlockShift = .ok ⟨15, 14, 1⟩ := by decide
  exact creation_exact rfl le_rfl (by norm_num) hsb (by norm_num) rfl hbelow (by decide) rfl

/-- Ten blocks are taken, but then there is none for the objid object. -/
theorem creation_ten_blocks :
    initSuperBlock 80 bytesPerBlockShift = .ok ⟨10, 9, 1⟩ ∧
      (∃ ct', createSystemObjects (countingEnv .extent) 2 0 (emptyContainer ⟨10, 9, 1⟩) =
        .error .noFreeBlocks ct') ∧
      ∃ s', ofsCreateContainer ⟨true, fun l => if l = .createSystemObjects then some .noFreeBlocks else none⟩
        [97] 80 ⟨[], 1⟩ = .error (.code .noFreeBlocks) s' := by
  refine ⟨by decide, ?_, _, rfl⟩
  rcases @createSystemObjects_ends _ (countingEnv .extent) 0 0 10 (emptyContainer ⟨10, 9, 1⟩) rfl (by decide) (by norm_num) (by norm_num) with ⟨hmore, -⟩ | ⟨-, herr⟩
  · exact absurd hmore (by norm_num)
  · exact herr

end Create

end Proofs

end IndexFs.Space
