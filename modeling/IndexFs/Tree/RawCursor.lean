import IndexFs.Block.Framing
import IndexFs.Collate.Memory
import IndexFs.Tree.Ops

/-!
# The cursor on the bytes of blocks

The functions of `object_system/ofs_btree.c` that move the cursor of a tree (lines
110–254, 330–532 and 1345–1427), on blocks as they lie in memory: the fields of blocks
and entries are read where the pointers of the code point, also outside a block, and
every access is listed. Blocks may hold anything; `index_block_read2` of a number gives
the same block each time, or fails.

A loop takes a bound on its rounds (`fuel`).
-/

namespace IndexFs.Raw

open IndexFs.Collate
open IndexFs.Framing (Mem)
open IndexFs.Tree (PrevResult)

/-! ## State -/

/-- `INDEX_ENTRY_NODE`, `INDEX_ENTRY_END` and `INDEX_ENTRY_BEGIN` are the bits 0 to 2 of `flags`. -/
structure EntryFlags where
  isNode : Bool
  isEnd : Bool
  isBegin : Bool
  deriving DecidableEq, Repr

/-- An access to `n` bytes of a block from an offset on, or one of `collate_key` to the query or to the
variables that are not set. -/
inductive Access
  | block (ib : Mem) (off : ℤ) (n : ℕ)
  | query (c : Cell)

/-- `ofs_block_cache_t`: `vbn` and `ib`. -/
structure Cache where
  vbn : ℕ
  ib : Mem

/-- `cache_stack[i]` and `position_stack[i]` of a level above the current one. -/
structure Level where
  cache : Cache
  position : ℕ

/-- An entry as a pointer: the block it points into, and the offset there. -/
structure EntryPtr where
  ib : Mem
  off : ℤ

/-- `object_handle_t`, as far as the cursor goes. `cache` is `NULL` after a failed read. -/
structure Cursor where
  maxDepth : ℕ
  levels : List Level
  cache : Option Cache
  position : ℕ
  ie : EntryPtr
  reads : List Access

/-- The tree under the cursor. -/
structure RawTree where
  /-- `attr_record->flags & FLAG_TABLE` -/
  table : Bool
  /-- `attr_record->flags & CR_MASK` -/
  cr : CollateRule
  /-- `obj_info->root_cache` -/
  root : Cache
  /-- what `index_block_read2` finds -/
  block : ℕ → Except ErrorCode Mem
  /-- `OFS_FREE_BLOCK` -/
  freeBlock : ℕ → Except ErrorCode Unit

/-- The key and the value that are searched for, and what lies behind them and in the variables
`pa1` and `pa2` of `os_collate_extent_map`. -/
structure Query where
  key : ℕ → UInt8
  keyLen : ℕ
  value : ℕ → UInt8
  valueLen : ℕ
  pa1 : ℕ
  pa2 : ℕ

abbrev RawM := EStateM ErrorCode Cursor

/-! ## Fields -/

def touch (a : Access) : RawM Unit := modify fun c => { c with reads := a :: c.reads }

/-- A field of `n` bytes at an offset of a block. -/
def field (ib : Mem) (off : ℤ) (n : ℕ) : RawM ℕ := do
  touch (.block ib off n)
  return readLe ib off n

/-- `tree->cache`. -/
def getCache : RawM Cache := do
  match (← get).cache with
  | some c => return c
  | none => throw .memory

/-- `head.real_size`. -/
def getRealSize (ib : Mem) : RawM ℕ := field ib 8 4

def firstEntryOff (ib : Mem) : RawM ℕ := field ib 16 2

/-- `node_type & INDEX_BLOCK_LARGE`. -/
def isLarge (ib : Mem) : RawM Bool := do return (← field ib 18 1).testBit 0

/-- `ie->len`. -/
def ieLen (p : EntryPtr) : RawM ℕ := field p.ib p.off 2

/-- `ie->prev_len`. -/
def iePrevLen (p : EntryPtr) : RawM ℕ := field p.ib (p.off + 2) 2

/-- `ie->key_len`. -/
def ieKeyLen (p : EntryPtr) : RawM ℕ := field p.ib (p.off + 4) 2

/-- `ie->value_len`. -/
def ieValueLen (p : EntryPtr) : RawM ℕ := field p.ib (p.off + 6) 2

/-- What a byte of flags says. -/
def flagsOf (b : ℕ) : EntryFlags := { isNode := b.testBit 0, isEnd := b.testBit 1, isBegin := b.testBit 2 }

/-- `ie->flags`. -/
def ieFlags (p : EntryPtr) : RawM EntryFlags := do return flagsOf (← field p.ib (p.off + 8) 1)

/-- `GET_IE_VBN`. -/
def ieVbn (p : EntryPtr) : RawM ℕ := do field p.ib (p.off + (← ieLen p) - vbnSize) 8

/-! ## Moves -/

/-- `tree->ie` and `tree->position`. -/
def setEntry (ie : EntryPtr) (position : ℕ) : RawM Unit := modify fun c => { c with ie, position }

/-- `get_last_ie` (lines 110–125). -/
def getLastIe : RawM Unit := do
  let ib := (← getCache).ib
  let lastIeLen := if ← isLarge ib then entrySize + vbnSize else entrySize
  let realSize ← getRealSize ib
  setEntry ⟨ib, realSize - lastIeLen⟩ (uint32 (realSize + 2 ^ 32 - lastIeLen))

/-- `GET_FIRST_IE`. -/
def getFirstIe : RawM Unit := do
  let ib := (← getCache).ib
  let off ← firstEntryOff ib
  setEntry ⟨ib, off⟩ off

/-- `reset_cache_stack` (lines 127–147). -/
def resetCacheStack (tree : RawTree) (flags : WalkFlags) : RawM Unit := do
  modify fun c => { c with cache := some tree.root, levels := [] }
  if flags.getLast then getLastIe else getFirstIe

/-- `index_block_read` (`ofs_metadata_cache.c`, lines 435–455): `tree->cache` is the block `vbn`. -/
def indexBlockRead (tree : RawTree) (vbn : ℕ) : RawM Unit := do
  if (← getCache).vbn = vbn then return ()
  else
    match tree.block vbn with
    | .ok ib => modify fun c => { c with cache := some ⟨vbn, ib⟩ }
    | .error e =>
      modify fun c => { c with cache := none }
      throw e

/-- `push_cache_stack` (lines 149–197). -/
def pushCacheStack (tree : RawTree) (flags : WalkFlags) : RawM Unit := do
  let c ← get
  if c.levels.length ≥ treeMaxDepth - 1 then throw .maxDepth
  else
    let vbn ← ieVbn c.ie
    let cache ← getCache
    indexBlockRead tree vbn
    modify fun c => { c with levels := ⟨cache, c.position⟩ :: c.levels }
    let depth := (← get).levels.length
    if ¬ (← isLarge (← getCache).ib) then modify fun c => { c with maxDepth := depth }
    if flags.getLast ∨ flags.getPrev then getLastIe else getFirstIe

/-- `get_prev_ie` (lines 200–226). -/
def getPrevIe : RawM PrevResult := do
  let c ← get
  let prevLen ← iePrevLen c.ie
  let ie : EntryPtr := ⟨c.ie.ib, c.ie.off - prevLen⟩
  setEntry ie (uint64Sub c.position prevLen)
  let _ ← getCache
  if ie.off < beginEntryOff then throw .format
  else if (← iePrevLen ie) = 0 then
    if (← ieFlags ie).isBegin then return .gettoBegin else throw .format
  else return .entry

/-- `pop_cache_stack` (lines 229–254). -/
def popCacheStack (flags : WalkFlags) : RawM PrevResult := do
  match (← get).levels with
  | [] => throw .root
  | l :: ls =>
    modify fun c =>
      { c with levels := ls, cache := some l.cache, position := l.position, ie := ⟨l.cache.ib, l.position⟩ }
    if flags.getPrev then getPrevIe else return .entry

/-- `get_next_ie` (lines 330–348). The message about an invalid entry shows its length. -/
def getNextIe : RawM Unit := do
  let c ← get
  if (← ieFlags c.ie).isEnd then throw .nextEntry
  else
    let len ← ieLen c.ie
    let ie : EntryPtr := ⟨c.ie.ib, c.ie.off + len⟩
    setEntry ie (uint64 (c.position + len))
    let realSize ← getRealSize (← getCache).ib
    if ie.off ≥ realSize then
      let _ ← ieLen ie
      throw .format
    else if (← ieLen ie) = 0 then throw .format
    else return ()

/-- `add_or_remove_ib` (lines 350–377). -/
def addOrRemoveIb (tree : RawTree) (flags : WalkFlags) : RawM Unit := do
  if flags.removeBlock then fromExcept (tree.freeBlock (← getCache).vbn) else return ()

/-- The first loop of `get_current_ie` (lines 384–392). -/
def descend (tree : RawTree) (flags : WalkFlags) : (fuel : ℕ) → RawM Unit
  | 0 => throw .fuel
  | fuel + 1 => do
    if (← ieFlags (← get).ie).isNode then
      pushCacheStack tree flags
      descend tree flags fuel
    else return ()

/-- The second loop of `get_current_ie` (lines 394–431). -/
def ascend (tree : RawTree) (flags : WalkFlags) : (fuel : ℕ) → RawM Unit
  | 0 => throw .fuel
  | fuel + 1 => do
    let f ← ieFlags (← get).ie
    if f.isEnd ∨ f.isBegin then
      addOrRemoveIb tree flags
      if flags.getLast ∨ flags.getPrev then
        if flags.getLastEntry then return ()
        else
          match ← getPrevIe with
          | .entry => return ()
          | .gettoBegin =>
            let _ ← popCacheStack flags
            ascend tree flags fuel
      else
        let _ ← popCacheStack flags
        ascend tree flags fuel
    else return ()

/-- `get_current_ie` (lines 380–435). -/
def getCurrentIe (tree : RawTree) (flags : WalkFlags) (fuel : ℕ) : RawM Unit := do
  descend tree flags fuel
  ascend tree flags fuel

/-- `walk_tree` (lines 437–471). -/
def walkTree (tree : RawTree) (flags : WalkFlags) (fuel : ℕ) : RawM Unit := do
  assertThat (tree.table = true)
  if flags.getFirst ∨ flags.getLast then resetCacheStack tree flags
  else if flags.getPrev then
    if ¬ (← ieFlags (← get).ie).isNode then
      let _ ← getPrevIe
  else if ¬ flags.getCurrent then getNextIe
  getCurrentIe tree flags fuel

/-! ## Search -/

/-- The operands of `collate_key` in memory. -/
def operands (q : Query) (p : EntryPtr) (keyLen : ℕ) : Memory where
  byte
    | .key1, i => p.ib (p.off + entrySize + i)
    | .value1, i => p.ib (p.off + entrySize + keyLen + i)
    | .key2, i => q.key i
    | .value2, i => q.value i
  pa1 := q.pa1
  pa2 := q.pa2

/-- Where `collate_key` finds what it reads. -/
def accessOf (p : EntryPtr) (keyLen : ℕ) : Cell → Access
  | .byte .key1 i => .block p.ib (p.off + entrySize + i) 1
  | .byte .value1 i => .block p.ib (p.off + entrySize + keyLen + i) 1
  | c => .query c

/-- `collate_key` of the entry under the cursor. -/
def collateKey (tree : RawTree) (q : Query) : RawM ℤ := do
  let p := (← get).ie
  let keyLen ← ieKeyLen p
  let valueLen ← if tree.cr = .extent ∨ tree.cr = .extentMap then ieValueLen p else pure 0
  let size : Sizes := fun
    | .key1 => keyLen
    | .value1 => valueLen
    | .key2 => q.keyLen
    | .value2 => q.valueLen
  let x := collateKeyAt (operands q p keyLen) tree.cr size
  modify fun c => { c with reads := (readsOf x).map (accessOf p keyLen) ++ c.reads }
  fromExcept (resultOf x)

/-- The inner loop of `search_key_internal` (lines 490–518): true if an equal entry was found, false at
the first larger one or the END entry. -/
def searchBlock (tree : RawTree) (q : Query) : (fuel : ℕ) → RawM Bool
  | 0 => throw .fuel
  | fuel + 1 => do
    if (← ieFlags (← get).ie).isEnd then return false
    else
      let ret ← collateKey tree q
      if ret > 0 then return false
      else if ret = 0 then return true
      else
        getNextIe
        searchBlock tree q fuel

/-- The outer loop of `search_key_internal` (lines 488–530), whose inner loop takes `rounds`. -/
def searchLevels (tree : RawTree) (q : Query) (rounds : ℕ) : (fuel : ℕ) → RawM Unit
  | 0 => throw .fuel
  | fuel + 1 => do
    if ← searchBlock tree q rounds then return ()
    else if ¬ (← ieFlags (← get).ie).isNode then throw .keyNotFound
    else
      pushCacheStack tree {}
      searchLevels tree q rounds fuel

/-- `search_key_internal` (lines 474–532). -/
def searchKeyInternal (tree : RawTree) (q : Query) (fuel : ℕ) : RawM Unit := do
  assertThat (q.keyLen ≠ 0)
  resetCacheStack tree {}
  searchLevels tree q fuel fuel

/-! ## Walks -/

/-- The `do`–`while` of `index_get_total_key` (lines 1357–1360). -/
def countLoop (tree : RawTree) (bound : ℕ) : (fuel cnt : ℕ) → RawM ℕ
  | 0, _ => throw .fuel
  | fuel + 1, cnt => do
    match ← codeOf (walkTree tree {} bound) with
    | .ok _ => countLoop tree bound fuel (cnt + 1)
    | .error _ => return cnt + 1

/-- `index_get_total_key` (lines 1345–1364). -/
def indexGetTotalKey (tree : RawTree) (fuel : ℕ) : RawM ℕ := do
  match ← codeOf (walkTree tree { getFirst := true } fuel) with
  | .ok _ => countLoop tree fuel fuel 0
  | .error _ => return 0

section WalkAll

variable {π : Type}

/-- The `do`–`while` of `index_walk_all` (lines 1412–1421). The callback gets the cursor, which it leaves
alone, and works on `para`. -/
def walkLoop (tree : RawTree) (flags : WalkFlags) (cb : Cursor → EStateM ErrorCode π Unit) (bound : ℕ) :
    (fuel : ℕ) → EStateM ErrorCode (Cursor × π) Unit
  | 0 => throw .fuel
  | fuel + 1 => do
    let c := (← get).1
    zoom Prod.snd (fun p s => (s.1, p)) (cb c)
    match ← codeOf (zoom Prod.fst (fun t s => (t, s.2)) (walkTree tree flags bound)) with
    | .ok _ => walkLoop tree flags cb bound fuel
    | .error _ => return ()

/-- `index_walk_all` (lines 1391–1431). -/
def indexWalkAll (tree : RawTree) (reverse removeBlock : Bool) (cb : Cursor → EStateM ErrorCode π Unit)
    (fuel : ℕ) : EStateM ErrorCode (Cursor × π) Unit := do
  let ifFlag : WalkFlags := { getFirst := !reverse, getLast := reverse, removeBlock }
  let whileFlag : WalkFlags := { getPrev := reverse, removeBlock }
  match ← codeOf (zoom Prod.fst (fun t s => (t, s.2)) (walkTree tree ifFlag fuel)) with
  | .ok _ => walkLoop tree whileFlag cb fuel fuel
  | .error _ => return ()

end WalkAll

end IndexFs.Raw
