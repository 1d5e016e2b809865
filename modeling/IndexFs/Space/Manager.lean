import IndexFs.Collate.Rules

/-!
# The space manager

`alloc_space`, `free_space`, `sm_alloc_space` and `sm_free_space` of
`object_system/ofs_space_manager.c` (lines 43–354). The free extents of a
container are the entries of a `CR_EXTENT` tree: the key is the first block, the
value the number of blocks, both as little-endian byte strings. The tree
operations they call are a parameter, `TreeOps`.

A `uint64_t` or `uint32_t` is a natural number, and each sum, difference and
conversion is reduced where the code's type does it. The loop of `free_space`
has no bound of its own, so it takes one (`fuel`).
-/

namespace IndexFs.Space

open IndexFs.Collate

variable {τ : Type}

/-- The operations of `ofs_btree.c` on an `object_handle_t`; `ie` is `obj->ie`. -/
structure TreeOps (τ : Type) where
  indexSearchKeyNolock : (key value : Bytes) → EStateM ErrorCode τ Unit
  walkTree : WalkFlags → EStateM ErrorCode τ Unit
  treeRemoveIe : EStateM ErrorCode τ Unit
  indexInsertKeyNolock : (key value : Bytes) → EStateM ErrorCode τ Unit
  ie : τ → IndexEntry

variable (ops : TreeOps τ)

/-- `os_bstr_to_u64(GET_IE_KEY(obj->ie), obj->ie->key_len)`. -/
def ieAddr : EStateM ErrorCode τ ℕ := do
  fromExcept (osBstrToU64 (ops.ie (← get)).key)

/-- `(uint32_t)os_bstr_to_u64(GET_IE_VALUE(obj->ie), obj->ie->value_len)`. -/
def ieLen : EStateM ErrorCode τ ℕ := do
  let len ← fromExcept (osBstrToU64 (ops.ie (← get)).value)
  return uint32 len

/-- `index_insert_key_nolock` with both numbers turned into byte strings. -/
def insertExtent (addr len : ℕ) : EStateM ErrorCode τ Unit :=
  ops.indexInsertKeyNolock (osU64ToBstr addr) (osU64ToBstr len)

/-- The search that opens `alloc_space` (lines 58–87): it leaves the cursor on an
extent and returns the first block to try. -/
def allocSpaceSearch (startBlk blkCnt : ℕ) : EStateM ErrorCode τ ℕ := do
  match ← codeOf (ops.indexSearchKeyNolock (osU64ToBstr startBlk) (osU64ToBstr blkCnt)) with
  | .ok _ => return startBlk
  | .error ret =>
    if ret ≠ .keyNotFound then throw ret
    else if (ops.ie (← get)).isEnd then
      -- no extent behind the requested range: start again from the first one
      match ← codeOf (ops.walkTree { getFirst := true }) with
      | .ok _ => ieAddr ops
      | .error ret => if ret ≠ .root then throw ret else throw .noFreeBlocks
    else ieAddr ops

/-- `alloc_space` when the range starts at the extent (lines 107–127). -/
def allocSpaceFront (addr end_ len blkCnt : ℕ) : EStateM ErrorCode τ (ℤ × ℕ) := do
  let endBlk := uint64 (addr + blkCnt)
  if endBlk < end_ then
    insertExtent ops endBlk (uint64Sub end_ endBlk)
    return (int32 (uint64Sub endBlk addr), addr)
  else return (int32 len, addr)

/-- `alloc_space` when the range starts inside the extent (lines 130–158). -/
def allocSpaceInside (startBlk addr end_ blkCnt : ℕ) : EStateM ErrorCode τ (ℤ × ℕ) := do
  let endBlk := uint64 (startBlk + blkCnt)
  assertThat (startBlk < end_)
  insertExtent ops addr (uint64Sub startBlk addr)
  if endBlk < end_ then
    insertExtent ops endBlk (uint64Sub end_ endBlk)
    return (int32 blkCnt, startBlk)
  else return (int32 (uint64Sub end_ startBlk), startBlk)

/-- `alloc_space` (lines 43–159): the returned number of blocks and
`*real_start_blk`. -/
def allocSpace (startBlk blkCnt : ℕ) : EStateM ErrorCode τ (ℤ × ℕ) := do
  assertThat (blkCnt ≠ 0)
  let startBlk ← allocSpaceSearch ops startBlk blkCnt
  let addr ← ieAddr ops
  let len ← ieLen ops
  let end_ := uint64 (addr + len)
  assertThat (len ≠ 0)
  ops.treeRemoveIe
  if startBlk ≤ addr then allocSpaceFront ops addr end_ len blkCnt
  else allocSpaceInside ops startBlk addr end_ blkCnt

/-- The check of the entry under the cursor in `free_space` (lines 181–209): the
extent that starts at the end of the freed range is taken out and the number of
blocks to insert grows by its length. -/
def freeSpaceNext (startBlk blkCnt : ℕ) : EStateM ErrorCode τ ℕ := do
  if (ops.ie (← get)).isEnd then return blkCnt
  else
    let addr ← ieAddr ops
    let len ← ieLen ops
    if addr < uint64 (startBlk + blkCnt) then throw .chaos
    else if addr = uint64 (startBlk + blkCnt) then
      ops.treeRemoveIe
      return uint32 (blkCnt + len)
    else return blkCnt

/-- The `while (1)` of `free_space` (lines 211–246): walk back to the extent
before the freed range and take it out if it ends where the range starts. -/
def freeSpacePrev (startBlk blkCnt : ℕ) : (fuel : ℕ) → EStateM ErrorCode τ (ℕ × ℕ)
  | 0 => throw .fuel
  | fuel + 1 => do
    match ← codeOf (ops.walkTree { getPrev := true }) with
    | .error _ => return (startBlk, blkCnt)
    | .ok _ =>
      let addr ← ieAddr ops
      let len ← ieLen ops
      if uint64 (addr + len) > startBlk then
        if addr > startBlk then freeSpacePrev startBlk blkCnt fuel
        else throw .chaos
      else if uint64 (addr + len) = startBlk then
        ops.treeRemoveIe
        return (addr, uint32 (blkCnt + len))
      else return (startBlk, blkCnt)

/-- `free_space` (lines 161–252). A search that succeeds returns its `0`. -/
def freeSpace (fuel startBlk blkCnt : ℕ) : EStateM ErrorCode τ Unit := do
  match ← codeOf (ops.indexSearchKeyNolock (osU64ToBstr startBlk) (osU64ToBstr blkCnt)) with
  | .ok _ => return ()
  | .error ret =>
    if ret ≠ .keyNotFound then throw ret
    else
      let blkCnt ← freeSpaceNext ops startBlk blkCnt
      let (startBlk, blkCnt) ← freeSpacePrev ops startBlk blkCnt fuel
      insertExtent ops startBlk blkCnt

/-- `struct space_manager` (`ofs_space_manager.h`), less its lock. -/
structure SpaceManager (τ : Type) where
  spaceObj : τ
  firstFreeBlock : ℕ
  totalFreeBlocks : ℕ

/-- A tree operation on `sm->space_obj`. -/
def onSpaceObj {α : Type} (x : EStateM ErrorCode τ α) : EStateM ErrorCode (SpaceManager τ) α :=
  zoom SpaceManager.spaceObj (fun t sm => { sm with spaceObj := t }) x

/-- `sm_alloc_space` (lines 292–336). -/
def smAllocSpace (blkCnt : ℕ) : EStateM ErrorCode (SpaceManager τ) (ℤ × ℕ) := do
  let sm ← get
  if sm.totalFreeBlocks = 0 then throw .noFreeBlocks
  else
    match ← codeOf (onSpaceObj (allocSpace ops sm.firstFreeBlock blkCnt)) with
    | .error ret =>
      if ret = .noFreeBlocks then
        modify fun sm => { sm with firstFreeBlock := 0, totalFreeBlocks := 0 }
        throw ret
      else throw ret
    | .ok (ret, realStartBlk) =>
      if ret < 0 then return (ret, realStartBlk)
      else
        modify fun sm =>
          { sm with
            firstFreeBlock := uint64 (realStartBlk + ret.toNat)
            totalFreeBlocks :=
              -- a count that is too small is reported and left alone
              if sm.totalFreeBlocks < ret.toNat then sm.totalFreeBlocks
              else sm.totalFreeBlocks - ret.toNat }
        return (ret, realStartBlk)

/-- `sm_free_space` (lines 338–354). -/
def smFreeSpace (fuel startBlk blkCnt : ℕ) : EStateM ErrorCode (SpaceManager τ) Unit := do
  onSpaceObj (freeSpace ops fuel startBlk blkCnt)
  modify fun sm => { sm with totalFreeBlocks := uint64 (sm.totalFreeBlocks + blkCnt) }

end IndexFs.Space
