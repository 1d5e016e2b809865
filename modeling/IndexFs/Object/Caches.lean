import IndexFs.Tree.Ops

/-!
# The block caches of a container

`object_system/ofs_metadata_cache.c`. A cache of a block is a member of the tree
`metadata_cache` of its container and, while its object is open, of the tree
`caches` of the object; both are ordered by the block number. `release_obj_cache`
takes it out of the second one only when it is dirty, and marks it for
`flush_container_dirty_cache`, which frees it once it is written.

A cache is named by its address. An AVL tree is the list of the addresses of its
members, whose order plays no part. A search that meets a member that was freed
ends with `memory`. The content of the blocks is left out: reads and writes of the
disk succeed.

An object is found by its number, `avl_add` keeps two objects of one number apart.
The state names for each block in use what it was allocated for, and the blocks of
which the disk has the present content.
-/

namespace IndexFs.Object

open IndexFs.Tree (CacheStatus)

/-! ## State -/

/-- The address of an `ofs_block_cache_t`. -/
abbrev CachePtr := ℕ

/-- The address of an `object_handle_t`. -/
abbrev HandlePtr := ℕ

/-- `ofs_block_cache_t`, less its block. `flush` is the bit `STATUS_FLUSH` of the state. -/
structure BlockCache where
  vbn : ℕ
  state : CacheStatus
  flush : Bool
  deriving DecidableEq, Repr

/-- `object_info_t`. `root_cache` has the number `rootVbn` and the state `rootState`. -/
structure ObjectInfo where
  objid : ℕ
  inodeNo : ℕ
  inodeCache : CachePtr
  rootVbn : ℕ
  rootState : CacheStatus
  caches : List CachePtr
  objHndList : List HandlePtr
  refCnt : ℕ
  deriving DecidableEq, Repr

/-- What a block was allocated for: the inode or the tree of an object. -/
inductive BlockUse
  | inode (objid : ℕ)
  | index (objid : ℕ)
  deriving DecidableEq, Repr

/-- The object that a block was allocated for. -/
def BlockUse.objid : BlockUse → ℕ
  | .inode objid => objid
  | .index objid => objid

/-- `container_handle_t` as far as its objects and caches are concerned. `idTree` are
the entries of the tree of `id_obj` in order, `use` are the blocks in use, `onDisk` those
whose present content is on the disk. -/
structure Container where
  heap : CachePtr → Option BlockCache
  nextCache : CachePtr
  metadataCache : List CachePtr
  objInfoList : List ObjectInfo
  nextHandle : HandlePtr
  idTree : List (Bytes × Bytes)
  baseInodeNo : ℕ
  spaceInodeNo : ℕ
  objidInodeNo : ℕ
  /-- `FLAG_DIRTY` -/
  dirty : Bool
  use : ℕ → Option BlockUse
  onDisk : ℕ → Bool

/-- A computation on a container. -/
abbrev ObjectM := EStateM ErrorCode Container

/-! ## Caches -/

/-- The cache at an address. -/
def getCache (p : CachePtr) : ObjectM BlockCache := do
  match (← get).heap p with
  | some c => return c
  | none => throw .memory

def putCache (p : CachePtr) (c : BlockCache) : ObjectM Unit :=
  modify fun ct => { ct with heap := Function.update ct.heap p (some c) }

/-- `OS_FREE(cache)`. -/
def osFree (p : CachePtr) : ObjectM Unit :=
  modify fun ct => { ct with heap := Function.update ct.heap p none }

/-- `SET_CACHE_EMPTY`, `SET_CACHE_CLEAN` and `SET_CACHE_DIRTY`, which also clear `STATUS_FLUSH`.
The block of a cache that becomes dirty has changed. -/
def setCacheState (p : CachePtr) (state : CacheStatus) : ObjectM Unit := do
  let c ← getCache p
  putCache p { c with state, flush := false }
  if state = .dirty then modify fun ct => { ct with onDisk := Function.update ct.onDisk c.vbn false }

/-- `SET_CACHE_FLUSH`. -/
def setCacheFlush (p : CachePtr) : ObjectM Unit := do
  let c ← getCache p
  putCache p { c with flush := true }

/-! ## AVL trees of caches -/

/-- `avl_find` with `compare_cache2`: the member with the number `vbn`. -/
def avlFind (heap : CachePtr → Option BlockCache) (vbn : ℕ) :
    List CachePtr → Except ErrorCode (Option CachePtr)
  | [] => .ok none
  | p :: l =>
    match heap p with
    | none => .error .memory
    | some c => if c.vbn = vbn then .ok (some p) else avlFind heap vbn l

/-- The search finds the member with the number. -/
theorem avlFind_some {heap : CachePtr → Option BlockCache} {l : List CachePtr} {vbn : ℕ} {p : CachePtr}
    (h : avlFind heap vbn l = .ok (some p)) : p ∈ l ∧ ∃ c, heap p = some c ∧ c.vbn = vbn := by
  induction l with
  | nil => cases h
  | cons q l ih =>
    unfold avlFind at h
    cases hq : heap q with
    | none => simp [hq] at h
    | some c =>
      rw [hq] at h
      dsimp only at h
      split_ifs at h with hn
      · cases h
        exact ⟨by simp, c, hq, hn⟩
      · obtain ⟨hp, hc⟩ := ih h
        exact ⟨List.mem_cons_of_mem _ hp, hc⟩

/-- The search fails if no member has the number. -/
theorem avlFind_none {heap : CachePtr → Option BlockCache} {l : List CachePtr} {vbn : ℕ}
    (h : avlFind heap vbn l = .ok none) : ∀ q ∈ l, ∃ c, heap q = some c ∧ c.vbn ≠ vbn := by
  induction l with
  | nil => simp
  | cons q l ih =>
    unfold avlFind at h
    cases hq : heap q with
    | none => simp [hq] at h
    | some c =>
      rw [hq] at h
      dsimp only at h
      split_ifs at h with hn
      · cases h
      · exact List.forall_mem_cons.mpr ⟨⟨c, hq, hn⟩, ih h⟩

/-- `avl_add`, with its `ASSERT` that no member has the same number. -/
def avlAdd (l : List CachePtr) (p : CachePtr) : ObjectM (List CachePtr) := do
  let c ← getCache p
  match ← fromExcept (avlFind (← get).heap c.vbn l) with
  | some _ => throw .assertion
  | none => return l ++ [p]

/-- `avl_remove` of a member. -/
def avlRemove (l : List CachePtr) (p : CachePtr) : ObjectM (List CachePtr) :=
  if p ∈ l then return l.erase p else throw .memory

/-! ## Objects -/

/-- The `object_info_t` of an object. -/
def getInfo (objid : ℕ) : ObjectM ObjectInfo := do
  match (← get).objInfoList.find? (·.objid = objid) with
  | some o => return o
  | none => throw .memory

/-- Change the `object_info_t` of an object. -/
def modifyInfo (objid : ℕ) (f : ObjectInfo → ObjectInfo) : ObjectM Unit :=
  modify fun ct =>
    { ct with objInfoList := ct.objInfoList.map fun o => if o.objid = objid then f o else o }

/-! ## `ofs_metadata_cache.c` -/

/-- `insert_obj_cache` (lines 60–70). -/
def insertObjCache (objid : ℕ) (p : CachePtr) : ObjectM Unit := do
  let caches ← avlAdd (← getInfo objid).caches p
  modifyInfo objid fun o => { o with caches }
  let metadataCache ← avlAdd (← get).metadataCache p
  modify fun ct => { ct with metadataCache }

/-- `remove_obj_cache` (lines 72–82). -/
def removeObjCache (objid : ℕ) (p : CachePtr) : ObjectM Unit := do
  let caches ← avlRemove (← getInfo objid).caches p
  modifyInfo objid fun o => { o with caches }
  let metadataCache ← avlRemove (← get).metadataCache p
  modify fun ct => { ct with metadataCache }

/-- `change_obj_cache_vbn` (lines 85–90). -/
def changeObjCacheVbn (objid : ℕ) (p : CachePtr) (newVbn : ℕ) : ObjectM Unit := do
  removeObjCache objid p
  let c ← getCache p
  putCache p { c with vbn := newVbn }
  insertObjCache objid p

/-- `alloc_obj_cache` (lines 94–121). -/
def allocObjCache (objid vbn : ℕ) : ObjectM CachePtr := do
  let p := (← get).nextCache
  modify fun ct => { ct with nextCache := p + 1 }
  putCache p { vbn, state := .empty, flush := false }
  insertObjCache objid p
  return p

/-- `free_obj_cache` (lines 123–138). -/
def freeObjCache (objid : ℕ) (p : CachePtr) : ObjectM Unit := do
  removeObjCache objid p
  osFree p

/-- `release_obj_cache` (lines 172–188). -/
def releaseObjCache (objid : ℕ) (p : CachePtr) : ObjectM Unit := do
  if (← getCache p).state = .dirty then
    setCacheFlush p
    let caches ← avlRemove (← getInfo objid).caches p
    modifyInfo objid fun o => { o with caches }
  else freeObjCache objid p

/-- `release_obj_all_cache` (lines 190–197). -/
def releaseObjAllCache (objid : ℕ) : ObjectM Unit := do
  (← getInfo objid).caches.forM (releaseObjCache objid)

/-- `free_container_cache` (lines 200–220). -/
def freeContainerCache (p : CachePtr) : ObjectM Unit := do
  let metadataCache ← avlRemove (← get).metadataCache p
  modify fun ct => { ct with metadataCache }
  osFree p

/-- `ofs_update_block_fixup` of the block of a cache; the write succeeds. -/
def updateBlock (vbn : ℕ) : ObjectM Unit :=
  modify fun ct => { ct with onDisk := Function.update ct.onDisk vbn true }

/-- `flush_container_dirty_cache` (lines 222–255). -/
def flushContainerDirtyCache (p : CachePtr) : ObjectM Unit := do
  let c ← getCache p
  if c.state ≠ .dirty then return ()
  else
    updateBlock c.vbn
    if c.flush then
      -- the object had been released
      setCacheState p .clean
      freeContainerCache p
    else setCacheState p .clean

/-- `flush_container_cache` (lines 257–287). -/
def flushContainerCache : ObjectM Unit := do
  (← get).metadataCache.forM flushContainerDirtyCache
  modify fun ct => { ct with dirty := false }

/-- `clean_obj_root_cache` (lines 289–300). -/
def cleanObjRootCache (o : ObjectInfo) : ObjectInfo :=
  if o.rootState = .dirty then { o with rootState := .clean } else o

/-- `clean_all_obj_root_cache` (lines 302–311). -/
def cleanAllObjRootCache : ObjectM Unit :=
  modify fun ct => { ct with objInfoList := ct.objInfoList.map cleanObjRootCache }

/-- `index_block_read2` (lines 373–433); the read succeeds. -/
def indexBlockRead2 (objid vbn : ℕ) : ObjectM CachePtr := do
  let o ← getInfo objid
  match ← fromExcept (avlFind (← get).heap vbn o.caches) with
  | some p => return p
  | none =>
    match ← fromExcept (avlFind (← get).heap vbn (← get).metadataCache) with
    | some p =>
      -- block already in the container cache
      let caches ← avlAdd o.caches p
      modifyInfo objid fun o => { o with caches }
      return p
    | none =>
      let p ← allocObjCache objid vbn
      setCacheState p .clean
      return p

end IndexFs.Object
