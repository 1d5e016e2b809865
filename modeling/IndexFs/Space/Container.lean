import IndexFs.Space.Manager

/-!
# The space of a container

A container has two space managers: `sm` for everything and `bsm` for the blocks
of the space object's own tree. `base_blk` is the one spare block for the tree of
the base object. This is the rest of `object_system/ofs_space_manager.c` (lines
254–459), with the super block it starts from (`init_super_block` and
`create_system_objects` of `ofs_container_manager.c`).

The loop of `reserve_base_space` has no bound of its own, so it takes one
(`fuel`), which it also hands to `free_space`.
-/

namespace IndexFs.Space

variable {τ : Type}

/-- `BYTES_PER_SECTOR_SHIFT`. -/
def bytesPerSectorShift : ℕ := 9

/-- `BYTES_PER_BLOCK_SHIFT`. -/
def bytesPerBlockShift : ℕ := 12

/-- `MIN_BLOCKS_NUM`. -/
def minBlocksNum : ℕ := 10

/-- `MAX_BLK_NUM`. -/
def maxBlkNum : ℕ := 10

/-- `MIN_BLK_NUM`. -/
def minBlkNum : ℕ := 3

/-- `BASE_OBJ_ID`. -/
def baseObjId : ℕ := 0

/-- `SPACE_OBJ_ID`. -/
def spaceObjId : ℕ := 1

/-- `ofs_super_block_t`, its counts of blocks. -/
structure SuperBlock where
  totalBlocks : ℕ
  freeBlocks : ℕ
  firstFreeBlock : ℕ
  deriving DecidableEq, Repr

/-- `init_super_block` (lines 292–325). -/
def initSuperBlock (totalSectors blockSizeShift : ℕ) : Except ErrorCode SuperBlock :=
  if blockSizeShift ≠ bytesPerBlockShift then .error .blockParameter
  else
    let totalBlocks := totalSectors >>> (blockSizeShift - bytesPerSectorShift)
    if totalBlocks < minBlocksNum then .error .blockParameter
    else .ok { totalBlocks, freeBlocks := totalBlocks - 1, firstFreeBlock := 1 }

/-- `create_system_objects` takes a block for each of the two inodes (lines 223–224). -/
def SuperBlock.takeInodes (sb : SuperBlock) : SuperBlock :=
  { sb with
    firstFreeBlock := uint64 (sb.firstFreeBlock + 2)
    freeBlocks := uint64Sub sb.freeBlocks 2 }

/-- `ofs_init_sm`. -/
def ofsInitSm (obj : τ) (firstFreeBlock totalFreeBlocks : ℕ) : SpaceManager τ :=
  { spaceObj := obj, firstFreeBlock, totalFreeBlocks }

variable (ops : TreeOps τ)

/-- `ofs_init_free_space` (lines 263–274). -/
def ofsInitFreeSpace (startBlk blkCnt : ℕ) : EStateM ErrorCode (SpaceManager τ) Unit :=
  onSpaceObj (insertExtent ops startBlk blkCnt)

/-- The fields of `container_handle_t` that the space managers work on. -/
structure Container (τ : Type) where
  bsm : SpaceManager τ
  sm : SpaceManager τ
  baseBlk : ℕ

/-- A call with `&ct->bsm`. -/
def onBsm {α : Type} (x : EStateM ErrorCode (SpaceManager τ) α) : EStateM ErrorCode (Container τ) α :=
  zoom Container.bsm (fun bsm ct => { ct with bsm }) x

/-- A call with `&ct->sm`. -/
def onSm {α : Type} (x : EStateM ErrorCode (SpaceManager τ) α) : EStateM ErrorCode (Container τ) α :=
  zoom Container.sm (fun sm ct => { ct with sm }) x

/-- The `while` of `reserve_base_space` (lines 374–391): blocks move from `sm` to
`bsm` until more than `MIN_BLK_NUM` are there. -/
def refillBase (freeFuel : ℕ) : (fuel : ℕ) → EStateM ErrorCode (Container τ) ℤ
  | 0 => throw .fuel
  | fuel + 1 => do
    let ct ← get
    if ct.bsm.totalFreeBlocks ≤ minBlkNum then
      let blkCnt := uint32 (uint64Sub maxBlkNum ct.bsm.totalFreeBlocks)
      let (ret, realStartBlk) ← onSm (smAllocSpace ops blkCnt)
      if ret < 0 then return ret
      else
        onBsm (smFreeSpace ops freeFuel realStartBlk ret.toNat)
        refillBase freeFuel fuel
    else return 0

/-- `reserve_base_space` (lines 356–394). -/
def reserveBaseSpace (fuel : ℕ) : EStateM ErrorCode (Container τ) ℤ := do
  if (← get).baseBlk = 0 then
    let (ret, realStartBlk) ← onSm (smAllocSpace ops 1)
    if ret < 0 then return ret
    else
      modify fun ct => { ct with baseBlk := realStartBlk }
      refillBase ops fuel fuel
  else refillBase ops fuel fuel

/-- `ofs_alloc_space` (lines 400–429). -/
def ofsAllocSpace (fuel objid blkCnt : ℕ) : EStateM ErrorCode (Container τ) (ℤ × ℕ) := do
  if objid = baseObjId then
    let ct ← get
    assertThat (ct.baseBlk ≠ 0)
    assertThat (blkCnt = 1)
    set { ct with baseBlk := 0 }
    return (int32 blkCnt, ct.baseBlk)
  else if objid = spaceObjId then onBsm (smAllocSpace ops blkCnt)
  else
    let ret ← reserveBaseSpace ops fuel
    if ret < 0 then return (ret, 0)
    else onSm (smAllocSpace ops blkCnt)

/-- `ofs_free_space` (lines 431–459): the return code. -/
def ofsFreeSpace (fuel objid startBlk blkCnt : ℕ) : EStateM ErrorCode (Container τ) ℤ := do
  if objid = baseObjId then
    let ct ← get
    assertThat (ct.baseBlk = 0)
    assertThat (blkCnt = 1)
    set { ct with baseBlk := startBlk }
    return 0
  else if objid = spaceObjId then
    onBsm (smFreeSpace ops fuel startBlk blkCnt)
    return 0
  else
    let ret ← reserveBaseSpace ops fuel
    if ret < 0 then return ret
    else
      onSm (smFreeSpace ops fuel startBlk blkCnt)
      return 0

end IndexFs.Space
