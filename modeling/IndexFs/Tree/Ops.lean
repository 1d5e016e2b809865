import IndexFs.Collate.Rules
import IndexFs.Tree.Block

/-!
# The tree of an object

`object_system/ofs_btree.c` on one `object_handle_t`. The root block lies in the
inode (`obj_info->root_cache`), the other blocks in `obj_info->caches` under
their block numbers. A handle's cursor is a stack of blocks with a position in
each; `tree->ie` is the entry at the position in the block on top.

What the code calls on the container is a parameter, `TreeEnv`: the allocator,
the allocation of a cache, and reading a block that is not in the caches of the
object. Memory for a single entry is always there. A read that fails leaves the
cursor where it is; the calls on keys and whole walks start again from the root.

Loops over the levels of the tree are bounded by `TREE_MAX_DEPTH`, loops over a
block by its number of entries.
-/

namespace IndexFs.Tree

open IndexFs.Collate

variable {σ : Type}

/-! ## State -/

/-- `cache_status_t`. -/
inductive CacheStatus
  | empty
  | clean
  | dirty
  deriving DecidableEq, Repr

/-- `ofs_block_cache_t` of an index block. The block is missing while nothing was
read into the cache and after it was freed. `flush` is the bit `STATUS_FLUSH`. -/
structure BlockCache where
  state : CacheStatus
  flush : Bool
  ib : Option IndexBlock
  deriving DecidableEq, Repr

/-- A cache as the cursor names it: `root_cache`, or the cache of a block number. -/
inductive CacheRef
  | root
  | block (vbn : ℕ)
  deriving DecidableEq, Repr

/-- One level of the cursor: `cache_stack[i]` and `position_stack[i]`. -/
structure Frame where
  cache : CacheRef
  position : ℕ
  deriving DecidableEq, Repr

/-- `object_info_t` and `object_handle_t` as far as the tree uses them. The top of
`stack` is `tree->cache` with `tree->position`. -/
structure ObjectTree (σ : Type) where
  rootVbn : ℕ
  rootState : CacheStatus
  rootIb : IndexBlock
  caches : ℕ → Option BlockCache
  maxDepth : ℕ
  stack : List Frame
  ct : σ

/-- The container as the tree sees it. -/
structure TreeEnv (σ : Type) where
  /-- `attr_record->flags & CR_MASK` -/
  cr : CollateRule
  /-- `OFS_ALLOC_BLOCK` -/
  allocBlock : EStateM ErrorCode σ ℕ
  /-- `OFS_FREE_BLOCK` -/
  freeBlock : ℕ → EStateM ErrorCode σ Unit
  /-- the `OS_MALLOC` in `alloc_obj_cache` -/
  allocCache : EStateM ErrorCode σ Unit
  /-- `index_block_read2` for a block that is not in `obj_info->caches` -/
  readBlock : ℕ → EStateM ErrorCode σ BlockCache
  /-- what is in the buffer of a cache whose read failed: nothing if the bytes make no block -/
  refused : ℕ → σ → Option IndexBlock

/-- A computation on the tree of one object. -/
abbrev TreeM (σ : Type) := EStateM ErrorCode (ObjectTree σ)

variable (env : TreeEnv σ)

/-- A call into the container. -/
def onCt {α : Type} (x : EStateM ErrorCode σ α) : TreeM σ α :=
  zoom ObjectTree.ct (fun c t => { t with ct := c }) x

/-- The block of a cache. -/
def getIb : CacheRef → TreeM σ IndexBlock
  | .root => do return (← get).rootIb
  | .block vbn => do
    match (← get).caches vbn with
    | some { ib := some ib, .. } => return ib
    | _ => throw .memory

/-- Replace the block of a cache. -/
def setIb (ref : CacheRef) (ib : IndexBlock) : TreeM σ Unit :=
  match ref with
  | .root => modify fun t => { t with rootIb := ib }
  | .block vbn => modify fun t =>
    { t with caches := Function.update t.caches vbn ((t.caches vbn).map fun c => { c with ib := some ib }) }

/-- `cache->vbn`. -/
def cacheVbn : CacheRef → TreeM σ ℕ
  | .root => do return (← get).rootVbn
  | .block vbn => pure vbn

/-- `CACHE_DIRTY`. -/
def cacheDirty : CacheRef → TreeM σ Bool
  | .root => do return (← get).rootState == .dirty
  | .block vbn => do
    match (← get).caches vbn with
    | some c => return c.state == .dirty
    | none => throw .memory

/-- `SET_CACHE_DIRTY`, which also clears `STATUS_FLUSH`. -/
def setCacheDirty : CacheRef → TreeM σ Unit
  | .root => modify fun t => { t with rootState := .dirty }
  | .block vbn => modify fun t =>
    { t with
      caches := Function.update t.caches vbn
        ((t.caches vbn).map fun c => { c with state := .dirty, flush := false }) }

/-- `change_obj_cache_vbn`; the stack names the cache by its new number from now on. -/
def changeObjCacheVbn (old new : ℕ) : TreeM σ Unit :=
  modify fun t =>
    { t with
      caches := Function.update (Function.update t.caches old none) new (t.caches old)
      stack := t.stack.map fun f =>
        if f.cache = .block old then { f with cache := .block new } else f }

/-- `alloc_obj_block_and_cache`: the number of a new block with an empty cache. If
there is no memory for the cache the block is freed again. -/
def allocObjBlockAndCache : TreeM σ ℕ := do
  let vbn ← onCt env.allocBlock
  match ← codeOf (onCt env.allocCache) with
  | .ok _ =>
    modify fun t =>
      { t with caches := Function.update t.caches vbn (some { state := .empty, flush := false, ib := none }) }
    return vbn
  | .error _ =>
    let _ ← codeOf (onCt (env.freeBlock vbn))
    throw .allocateMemory

/-- `free_obj_cache`. -/
def freeObjCache (vbn : ℕ) : TreeM σ Unit :=
  modify fun t => { t with caches := Function.update t.caches vbn none }

/-! ## Cursor -/

/-- `tree->depth`. -/
def depth (t : ObjectTree σ) : ℕ := t.stack.length - 1

/-- `tree->cache` and `tree->position`. -/
def top : TreeM σ Frame := do
  match (← get).stack with
  | f :: _ => return f
  | [] => throw .memory

/-- `tree->ie`. -/
def currentIe : TreeM σ IndexEntry := do
  let f ← top
  fromExcept (getIe (← getIb f.cache) f.position)

/-- Set `tree->position`. -/
def setPosition (pos : ℕ) : TreeM σ Unit :=
  modify fun t =>
    { t with stack := match t.stack with
        | f :: fs => { f with position := pos } :: fs
        | [] => [] }

/-- One round of the loop of `set_ib_dirty` (lines 59–105) for the block at level
`i` of the stack: its old number if the block was clean and got a new one. -/
def renumber (ref : CacheRef) : TreeM σ (Option (ℕ × ℕ)) := do
  if ← cacheDirty ref then return none
  else
    let newVbn ← onCt env.allocBlock
    let oldVbn ← cacheVbn ref
    match ref with
    | .root => modify fun t => { t with rootVbn := newVbn }
    | .block vbn => changeObjCacheVbn vbn newVbn
    return some (oldVbn, newVbn)

/-- The cache at level `i` of the stack. -/
def frameAt (i : ℕ) : TreeM σ Frame := do
  match (← get).stack[i]? with
  | some f => return f
  | none => throw .memory

/-- `SET_IE_VBN` on the entry of a level of the stack. -/
def setFrameVbn (f : Frame) (vbn : ℕ) : TreeM σ Unit := do
  setIb f.cache (← fromExcept (setIeVbn (← getIb f.cache) f.position vbn))

/-- Lines 82–86 of `set_ib_dirty`: the entry of a level names its child `vbn`, the new
number of the block below; `0` if that kept its own. -/
def setChildVbn (f : Frame) (vbn : ℕ) : TreeM σ Unit :=
  if vbn ≠ 0 then setFrameVbn f vbn else pure ()

/-- `set_ib_dirty` (lines 46–108) from level `i` of the stack upwards; `n` levels
are left. -/
def setIbDirtyFrom (vbn : ℕ) : (n i : ℕ) → TreeM σ Unit
  | 0, _ => return ()
  | n + 1, i => do
    let changed ← renumber env (← frameAt i).cache
    let f ← frameAt i
    setChildVbn f vbn
    match changed with
    | none => return ()
    | some (oldVbn, newVbn) =>
      setCacheDirty f.cache
      onCt (env.freeBlock oldVbn)
      setIbDirtyFrom newVbn n (i + 1)

/-- `set_ib_dirty` (lines 46–108). -/
def setIbDirty : TreeM σ Unit := do
  setIbDirtyFrom env 0 (← get).stack.length 0

/-- The position of the END entry, as `get_last_ie` (lines 110–125) finds it. -/
def lastPosition (ib : IndexBlock) : ℕ :=
  ib.realSize - (if ib.large then entrySize + vbnSize else entrySize)

/-- `reset_cache_stack` (lines 127–147). -/
def resetCacheStack (flags : WalkFlags) : TreeM σ Unit :=
  modify fun t =>
    { t with stack :=
        [⟨.root, if flags.getLast then lastPosition t.rootIb else t.rootIb.firstEntryOff⟩] }

/-- A read of the block `vbn` failed with `ret`: unless there was no memory for it, its cache
stays in the tree, `EMPTY`, with what is in the buffer. -/
def leaveCache (vbn : ℕ) (ret : ErrorCode) (t : ObjectTree σ) : ObjectTree σ :=
  if ret = .allocateMemory then t
  else
    { t with
      caches := Function.update t.caches vbn
        (some { state := .empty, flush := false, ib := env.refused vbn t.ct }) }

/-- `index_block_read`: the cache of the block `vbn`. A cache that is there is not asked
whether its block was read. -/
def indexBlockRead (vbn : ℕ) : TreeM σ CacheRef := do
  let f ← top
  if (← cacheVbn f.cache) = vbn then return f.cache
  else
    match (← get).caches vbn with
    | some _ => return .block vbn
    | none =>
      match ← codeOf (onCt (env.readBlock vbn)) with
      | .ok c =>
        modify fun t => { t with caches := Function.update t.caches vbn (some c) }
        return .block vbn
      | .error ret =>
        modify (leaveCache env vbn ret)
        throw ret

/-- `push_cache_stack` (lines 149–197). -/
def pushCacheStack (flags : WalkFlags) : TreeM σ Unit := do
  let t ← get
  if depth t ≥ treeMaxDepth - 1 then throw .maxDepth
  else
    let ie ← currentIe
    let cache ← indexBlockRead env ie.vbn
    let ib ← getIb cache
    let position := if flags.getLast ∨ flags.getPrev then lastPosition ib else ib.firstEntryOff
    modify fun t =>
      let stack := ⟨cache, position⟩ :: t.stack
      { t with
        stack := stack
        -- a block without children tells the depth of the tree
        maxDepth := if ¬ ib.large ∧ t.maxDepth ≠ stack.length - 1 then stack.length - 1 else t.maxDepth }

/-- What `get_prev_ie` found: an entry or the BEGIN entry (`INDEX_GETTO_BEGIN`). -/
inductive PrevResult
  | entry
  | gettoBegin
  deriving DecidableEq, Repr

/-- `get_prev_ie` (lines 200–226). -/
def getPrevIe : TreeM σ PrevResult := do
  let f ← top
  let ie ← currentIe
  if f.position < beginEntryOff + ie.prevLen then throw .format
  else
    setPosition (f.position - ie.prevLen)
    let prev ← currentIe
    if prev.prevLen = 0 then
      if prev.isBegin then return .gettoBegin else throw .format
    else return .entry

/-- `pop_cache_stack` (lines 229–253). -/
def popCacheStack (flags : WalkFlags) : TreeM σ PrevResult := do
  let t ← get
  if depth t = 0 then throw .root
  else
    set { t with stack := t.stack.tail }
    if flags.getPrev then getPrevIe else return .entry

/-- `get_next_ie` (lines 330–348). -/
def getNextIe : TreeM σ Unit := do
  let f ← top
  let ie ← currentIe
  if ie.isEnd then throw .nextEntry
  else
    let ib ← getIb f.cache
    setPosition (f.position + ie.len)
    if f.position + ie.len ≥ ib.realSize then throw .format
    else
      let next ← currentIe
      if next.len = 0 then throw .format else return ()

/-- `add_or_remove_ib` (lines 350–377). -/
def addOrRemoveIb (flags : WalkFlags) : TreeM σ Unit := do
  if flags.removeBlock then
    let f ← top
    onCt (env.freeBlock (← cacheVbn f.cache))
  else return ()

/-- The first loop of `get_current_ie` (lines 384–392): down to a block without children. -/
def descend (flags : WalkFlags) : (fuel : ℕ) → TreeM σ Unit
  | 0 => throw .fuel
  | fuel + 1 => do
    let ie ← currentIe
    if ie.isNode then
      pushCacheStack env flags
      descend flags fuel
    else return ()

/-- The second loop of `get_current_ie` (lines 394–431): off the END and BEGIN entries. -/
def ascend (flags : WalkFlags) : (fuel : ℕ) → TreeM σ Unit
  | 0 => throw .fuel
  | fuel + 1 => do
    let ie ← currentIe
    if ie.isEnd ∨ ie.isBegin then
      addOrRemoveIb env flags
      if flags.getLast ∨ flags.getPrev then
        if flags.getLastEntry then return ()
        else
          match ← getPrevIe with
          | .entry => return ()
          | .gettoBegin =>
            let _ ← popCacheStack flags
            ascend flags fuel
      else
        let _ ← popCacheStack flags
        ascend flags fuel
    else return ()

/-- `get_current_ie` (lines 380–435). -/
def getCurrentIe (flags : WalkFlags) : TreeM σ Unit := do
  descend env flags (treeMaxDepth + 1)
  ascend env flags (treeMaxDepth + 1)

/-- `walk_tree` (lines 437–471). -/
def walkTree (flags : WalkFlags) : TreeM σ Unit := do
  if flags.getFirst ∨ flags.getLast then resetCacheStack flags
  else if flags.getPrev then
    let ie ← currentIe
    if ¬ ie.isNode then
      let _ ← getPrevIe
  else if ¬ flags.getCurrent then getNextIe
  getCurrentIe env flags

/-! ## Search -/

/-- The inner loop of `search_key_internal` (lines 490–518): true if an equal entry
was found, false at the first larger one or the END entry. -/
def searchBlock (key value : Bytes) : (fuel : ℕ) → TreeM σ Bool
  | 0 => throw .fuel
  | fuel + 1 => do
    let ie ← currentIe
    if ie.isEnd then return false
    else
      let ret ← fromExcept (collateKey env.cr ie key value)
      if ret > 0 then return false
      else if ret = 0 then return true
      else
        getNextIe
        searchBlock key value fuel

/-- The outer loop of `search_key_internal` (lines 488–530). -/
def searchLevels (key value : Bytes) : (fuel : ℕ) → TreeM σ Unit
  | 0 => throw .fuel
  | fuel + 1 => do
    let ib ← getIb (← top).cache
    if ← searchBlock env key value (ib.entries.length + 1) then return ()
    else
      let ie ← currentIe
      if ¬ ie.isNode then throw .keyNotFound
      else
        pushCacheStack env {}
        searchLevels key value fuel

/-- `search_key_internal` (lines 474–532). -/
def searchKeyInternal (key value : Bytes) : TreeM σ Unit := do
  assertThat (key ≠ [])
  resetCacheStack {}
  searchLevels env key value (treeMaxDepth + 1)

/-- `get_to_near_key` (lines 535–556). -/
def getToNearKey : (fuel : ℕ) → TreeM σ Unit
  | 0 => throw .fuel
  | fuel + 1 => do
    let ie ← currentIe
    if ie.isEnd then
      match ← codeOf (popCacheStack {}) with
      | .ok _ => getToNearKey fuel
      | .error _ => return ()
    else return ()

/-- `index_search_key_nolock` (lines 558–578). -/
def indexSearchKeyNolock (key value : Bytes) : TreeM σ Unit := do
  if key = [] then throw .parameter
  else
    match ← codeOf (searchKeyInternal env key value) with
    | .ok _ => return ()
    | .error ret =>
      if ret = .keyNotFound then getToNearKey (treeMaxDepth + 1)
      throw ret

end IndexFs.Tree
