import IndexFs.Tree.Ops

/-!
# Inserting and removing entries

The functions of `object_system/ofs_btree.c` that change the tree of an object
(lines 802–1350). A pending entry lies in memory of its own until `insert_ie`
copies it into a block.

Each round of the loop of `tree_insert_ie` inserts the entry, splits a block and
goes up one level, or moves the root into a new block; `insertFuel` bounds it.
-/

namespace IndexFs.Tree

open IndexFs.Collate

variable {σ : Type} (env : TreeEnv σ)

/-! ## Insertion -/

/-- `insert_ie` into the block of a cache. -/
def insertInto (ref : CacheRef) (ie : IndexEntry) (pos : ℕ) : TreeM σ Unit := do
  setIb ref (← fromExcept (insertIe (← getIb ref) ie pos))

/-- Lines 826–830 of `split_ib`: if the place of `ie` is behind the middle entry of
`src`, it goes into the new block. -/
def insertBehind (src : IndexBlock) (ie : IndexEntry) (mid pos newVbn : ℕ) : TreeM σ Unit :=
  if mid < pos then do
    let newIb ← getIb (.block newVbn)
    let midIe ← fromExcept (getIe src mid)
    insertInto (.block newVbn) ie (newIb.firstEntryOff + (pos - mid) - midIe.len)
  else pure ()

/-- Lines 851–854 of `split_ib`: otherwise it goes into the old block. -/
def insertAhead (f : Frame) (ie : IndexEntry) (mid : ℕ) : TreeM σ Unit :=
  if mid < f.position then pure () else insertInto f.cache ie f.position

/-- `split_ib` up to `set_ib_dirty` (lines 813–841): the entries behind the middle one
go to a new block. Returns the position of the middle entry and the new number. -/
def splitTail (ie : IndexEntry) : TreeM σ (ℕ × ℕ) := do
  let f ← top
  let ib ← getIb f.cache
  let mid := getMiddleIe ib
  let newVbn ← allocObjBlockAndCache env
  let (newIb, src) ← fromExcept (copyIbTail ib mid)
  setIb f.cache src
  setIb (.block newVbn) newIb
  insertBehind src ie mid f.position newVbn
  setCacheDirty (.block newVbn)
  setIbDirty env
  return (mid, newVbn)

/-- `split_ib` from there on (lines 843–868): the old block keeps the entries before
the middle one, which is returned, and the entry above points to the new block. -/
def splitHead (ie : IndexEntry) (mid newVbn : ℕ) : TreeM σ IndexEntry := do
  let f ← top
  let src ← getIb f.cache
  let midIe ← fromExcept (getIe src mid)
  let newIe := dumpIeAddVbn midIe (← cacheVbn f.cache)
  setIb f.cache (← fromExcept (cutIbTail src mid))
  insertAhead f ie mid
  let _ ← popCacheStack {}
  setFrameVbn (← top) newVbn
  return newIe

/-- `split_ib` (lines 802–869): `ie` is in one of the halves afterwards, the
middle entry is returned. -/
def splitIb (ie : IndexEntry) : TreeM σ IndexEntry := do
  let (mid, newVbn) ← splitTail env ie
  splitHead ie mid newVbn

/-- `reparent_root` (lines 872–931). When `set_ib_dirty` fails the block of the new
cache is freed while the cache stays. -/
def reparentRoot : TreeM σ Unit := do
  if (← get).maxDepth ≥ treeMaxDepth - 1 then throw .maxDepth
  else
    let f ← top
    let oldIb ← getIb f.cache
    let newVbn ← allocObjBlockAndCache env
    setIb (.block newVbn) { oldIb with allocSize := blockSize }
    setCacheDirty (.block newVbn)
    let ib := initIb true oldIb.allocSize
    setIb f.cache (← fromExcept (setIeVbn ib ib.firstEntryOff newVbn))
    match ← codeOf (setIbDirty env) with
    | .error ret =>
      modify fun t =>
        { t with
          caches := Function.update t.caches newVbn
            ((t.caches newVbn).map fun c => { c with ib := none }) }
      throw ret
    | .ok _ =>
      let ib ← getIb f.cache
      setPosition ib.firstEntryOff
      modify fun t => { t with stack := ⟨.block newVbn, f.position⟩ :: t.stack }

/-- A bound on the rounds of `tree_insert_ie`: each level is split at most once and
the root is moved at most once. -/
def insertFuel : ℕ := 2 * treeMaxDepth

/-- `tree_insert_ie` (lines 933–974). -/
def treeInsertIe (ie : IndexEntry) : (fuel : ℕ) → TreeM σ Unit
  | 0 => throw .fuel
  | fuel + 1 => do
    let f ← top
    let ib ← getIb f.cache
    if uint32 (ib.realSize + ie.len) ≤ ib.allocSize then
      insertInto f.cache ie f.position
      setIbDirty env
    else if depth (← get) = 0 then
      match ← codeOf (reparentRoot env) with
      | .ok _ => treeInsertIe ie fuel
      | .error _ => throw .reparent
    else
      match ← codeOf (splitIb env ie) with
      | .ok midIe => treeInsertIe midIe fuel
      | .error _ => throw .insertEntry

/-! ## Removal -/

/-- The loop of `check_removed_ib` (lines 991–1025): the empty block on top goes,
and with it each block above that is left without entries. False if that reached
the root. -/
def freeEmptyIbs : (fuel : ℕ) → TreeM σ Bool
  | 0 => throw .fuel
  | fuel + 1 => do
    let vbn ← cacheVbn (← top).cache
    onCt (env.freeBlock vbn)
    freeObjCache vbn
    let _ ← popCacheStack {}
    let f ← top
    let ib ← getIb f.cache
    let ie ← fromExcept (getIe ib ib.firstEntryOff)
    if ¬ ie.isEnd then return true
    else if depth (← get) = 0 then
      setIb f.cache (makeIbSmall ib)
      setIbDirty env
      return false
    else freeEmptyIbs fuel

/-- `check_removed_ib` (lines 976–1028): true if blocks were freed and the entry
above them has no child now. -/
def checkRemovedIb : TreeM σ Bool := do
  let ib ← getIb (← top).cache
  let ie ← fromExcept (getIe ib ib.firstEntryOff)
  if ¬ ie.isEnd then return false
  else if depth (← get) = 0 then return false
  else freeEmptyIbs env (treeMaxDepth + 1)

/-- The end of `remove_leaf` (lines 1072–1101): the entry at `pos` moves from its
block into a leaf. `flags` lead there from the entry behind it. -/
def moveToLeaf (pos : ℕ) (flags : WalkFlags) : TreeM σ Unit := do
  let f ← top
  let ib ← getIb f.cache
  let ie := dumpIeDelVbn (← fromExcept (getIe ib pos))
  setIb f.cache (← fromExcept (removeIe ib pos))
  setIbDirty env
  setPosition pos
  getCurrentIe env flags
  treeInsertIe env ie insertFuel

/-- `remove_leaf` (lines 1030–1102). -/
def removeLeaf : TreeM σ Unit := do
  let f ← top
  setIb f.cache (← fromExcept (removeIe (← getIb f.cache) f.position))
  setIbDirty env
  if ← checkRemovedIb env then
    let f ← top
    let ie ← currentIe
    if ie.isEnd then
      -- the END entry takes over the child of the entry before it
      let ib ← getIb f.cache
      let prevIe ← fromExcept (getIe ib (f.position - ie.prevLen))
      setIb f.cache (← fromExcept (setIeVbn ib f.position prevIe.vbn))
      moveToLeaf env (f.position - ie.prevLen) { getLast := true, getLastEntry := true }
    else moveToLeaf env f.position { getCurrent := true }

/-- The `while` of `remove_node` (lines 1137–1146). -/
def popTo (d : ℕ) : (n : ℕ) → TreeM σ Unit
  | 0 => return ()
  | n + 1 => do
    if depth (← get) > d then
      let _ ← popCacheStack {}
      popTo d n
    else return ()

/-- `remove_node` (lines 1104–1181). -/
def removeNode : TreeM σ Unit := do
  let d := depth (← get)
  let ie ← currentIe
  walkTree env {}
  let succIe := dumpIeAddVbn (← currentIe) ie.vbn
  popTo d (← get).stack.length
  setPosition ((← top).position - ie.len)
  let f ← top
  setIb f.cache (← fromExcept (removeIe (← getIb f.cache) f.position))
  setIbDirty env
  treeInsertIe env succIe insertFuel
  walkTree env {}
  removeLeaf env

/-- `tree_remove_ie` (lines 1183–1197). -/
def treeRemoveIe : TreeM σ Unit := do
  let ie ← currentIe
  if ie.isEnd ∨ ie.isBegin then throw .endEntry
  else if ie.isNode then removeNode env
  else removeLeaf env

/-! ## By key -/

/-- `index_remove_key_nolock` (lines 1199–1226). -/
def indexRemoveKeyNolock (key : Bytes) : TreeM σ Unit := do
  if key = [] then throw .parameter
  else
    searchKeyInternal env key []
    treeRemoveIe env

/-- The entry that `index_insert_key_nolock` builds (lines 1269–1287), in memory of `len` bytes:
a key and a value for which these are too few are copied past the end. -/
def newIe (key value : Bytes) : Except ErrorCode IndexEntry :=
  let len := uint16 (entrySize + key.length + value.length)
  if len < entrySize + key.length + value.length then .error .memory
  else .ok
    { len := len, prevLen := 0, key := key, value := value, vbn := 0,
      isNode := false, isEnd := false, isBegin := false }

/-- `index_insert_key_nolock` (lines 1246–1303). -/
def indexInsertKeyNolock (key value : Bytes) : TreeM σ Unit := do
  if key = [] then throw .parameter
  else
    match ← codeOf (searchKeyInternal env key value) with
    | .ok _ => throw .keyExist
    | .error ret =>
      if ret ≠ .keyNotFound then throw ret
      else treeInsertIe env (← fromExcept (newIe key value)) insertFuel

/-- `index_update_value` (lines 1325–1345), less the lock; the return code of the
removal is overwritten. -/
def indexUpdateValue (key value : Bytes) : TreeM σ Unit := do
  if key = [] then throw .parameter
  else
    let _ ← codeOf (indexRemoveKeyNolock env key)
    indexInsertKeyNolock env key value

end IndexFs.Tree
