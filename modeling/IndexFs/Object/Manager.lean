import IndexFs.Collate.Rules
import IndexFs.Object.Caches
import IndexFs.Space.Container

/-!
# Opening and closing objects

`object_system/ofs_object_manager.c`, with `commit_container_modification` of
`ofs_metadata_cache.c` and the two functions of `ofs_container_manager.c` that
register the system objects.

An operation on the tree of an object, `index_insert_key` and the like, is seen
here by what it does to blocks and caches: it is a sequence of `ObjectOp`s, each of
which names the block numbers it is about. It stays within the blocks of its own
object, and an allocation returns a number that is not in use. What the allocator does
to the trees of the two space objects is a sequence of `ObjectOp`s of their own. The
entries of the tree of `id_obj` are `idTree`; its operations act on them as on a
sorted list.

`Call` is a call of the public functions, with the sequences that happen in it.
-/

namespace IndexFs.Object

open IndexFs.Collate IndexFs.Space

/-- `OBJID_OBJ_ID`. -/
def objidObjId : ℕ := 2

/-- `RESERVED_OBJ_ID`. -/
def reservedObjId : ℕ := 128

/-- `INVALID_OBJID`. -/
def invalidObjid : ℕ := 2 ^ 64 - 1

/-- `BASE_OBJ_INODE`. -/
def baseObjInode : ℕ := 1

/-- `SPACE_OBJ_INODE`. -/
def spaceObjInode : ℕ := 2

/-! ## Blocks -/

/-- `OFS_ALLOC_BLOCK`, which returns `vbn`. -/
def allocBlock (vbn : ℕ) (use : BlockUse) : ObjectM Unit := do
  if vbn = 0 ∨ 2 ^ 64 ≤ vbn ∨ (← get).use vbn ≠ none then throw .noFreeBlocks
  else
    modify fun ct =>
      { ct with
        use := Function.update ct.use vbn (some use), onDisk := Function.update ct.onDisk vbn false }

/-- `OFS_FREE_BLOCK`. -/
def freeBlock (vbn : ℕ) : ObjectM Unit :=
  modify fun ct => { ct with use := Function.update ct.use vbn none }

/-- The tree of the object has the block `vbn`. -/
def checkBlock (objid vbn : ℕ) : ObjectM Unit := do
  if (← get).use vbn = some (.index objid) then return () else throw .format

/-! ## Operations on the tree of an object -/

/-- What an operation on the tree of an object does to blocks and caches. -/
inductive ObjectOp
  /-- `index_block_read` of the child block `vbn` -/
  | read (vbn : ℕ)
  /-- a round of the loop of `set_ib_dirty` on the block `vbn`; `newVbn` is the number it
  gets if it was clean -/
  | setDirty (vbn newVbn : ℕ)
  /-- the last round of that loop, on the root block -/
  | setRootDirty (newVbn : ℕ)
  /-- `alloc_obj_block_and_cache` and `SET_CACHE_DIRTY` in `split_ib` and `reparent_root` -/
  | alloc (vbn : ℕ)
  /-- a round of the loop of `check_removed_ib` on the block `vbn` -/
  | free (vbn : ℕ)
  /-- `ofs_set_object_name` -/
  | setName

/-- The cache of a block that the operation has read before. -/
def cachedBlock (objid vbn : ℕ) : ObjectM CachePtr := do
  checkBlock objid vbn
  match ← fromExcept (avlFind (← get).heap vbn (← getInfo objid).caches) with
  | some p => return p
  | none => throw .format

/-- One operation on blocks and caches. -/
def runOp (objid : ℕ) : ObjectOp → ObjectM Unit
  | .read vbn => do
    checkBlock objid vbn
    let _ ← indexBlockRead2 objid vbn
  | .setDirty vbn newVbn => do
    let p ← cachedBlock objid vbn
    if (← getCache p).state = .dirty then return ()
    else
      allocBlock newVbn (.index objid)
      changeObjCacheVbn objid p newVbn
      setCacheState p .dirty
      freeBlock vbn
  | .setRootDirty newVbn => do
    let o ← getInfo objid
    if o.rootState = .dirty then return ()
    else
      allocBlock newVbn (.inode objid)
      modifyInfo objid fun o => { o with rootVbn := newVbn }
      changeObjCacheVbn objid o.inodeCache newVbn
      modifyInfo objid fun o => { o with rootState := .dirty }
      freeBlock o.rootVbn
  | .alloc vbn => do
    allocBlock vbn (.index objid)
    let p ← allocObjCache objid vbn
    setCacheState p .dirty
  | .free vbn => do
    let p ← cachedBlock objid vbn
    freeBlock vbn
    setCacheState p .empty
    freeObjCache objid p
  | .setName => do
    setCacheState (← getInfo objid).inodeCache .dirty

/-- The three objects that the container itself works on. -/
inductive SystemObject
  | base
  | space
  | objid
  deriving DecidableEq, Repr

def SystemObject.id : SystemObject → ℕ
  | .base => baseObjId
  | .space => spaceObjId
  | .objid => objidObjId

/-- Operations of the container on its own objects. -/
abbrev SystemOps := List (SystemObject × ObjectOp)

def runSystemOps (ops : SystemOps) : ObjectM Unit := ops.forM fun x => runOp x.1.id x.2

/-- The blocks that a search of the tree of `id_obj` reads. -/
def readIdBlocks (vbns : List ℕ) : ObjectM Unit := vbns.forM fun vbn => runOp objidObjId (.read vbn)

/-! ## The tree of `id_obj` -/

/-- The bytes of a `uint64_t` in memory. -/
def u64Bytes (u64 : ℕ) : Bytes := (List.range 8).map fun pos => UInt8.ofNat (u64Byte u64 pos)

/-- What an entry of `id_obj` compares to under `CR_U64`. -/
def idCollate (key : Bytes) (kv : Bytes × Bytes) : Except ErrorCode ℤ := osCollateU64 kv.1 key

/-- The entries before the place of a key, and those from there on. -/
def idSplit (key : Bytes) : List (Bytes × Bytes) → Except ErrorCode (List (Bytes × Bytes) × List (Bytes × Bytes))
  | [] => .ok ([], [])
  | kv :: l => do
    if (← idCollate key kv) < 0 then
      let (before, after) ← idSplit key l
      return (kv :: before, after)
    else return ([], kv :: l)

/-- `search_key_internal` on `id_obj`: the value of an equal key. -/
def idSearch (key : Bytes) : ObjectM Bytes := do
  match ← fromExcept (idSplit key (← get).idTree) with
  | (_, kv :: _) => if (← fromExcept (idCollate key kv)) = 0 then return kv.2 else throw .keyNotFound
  | (_, []) => throw .keyNotFound

/-- `index_insert_key_nolock` on `id_obj`. -/
def idInsert (key value : Bytes) : ObjectM Unit := do
  match ← codeOf (idSearch key) with
  | .ok _ => throw .keyExist
  | .error ret =>
    if ret ≠ .keyNotFound then throw ret
    else
      let (before, after) ← fromExcept (idSplit key (← get).idTree)
      modify fun ct => { ct with idTree := before ++ (key, value) :: after }

/-- `index_remove_key_nolock` on `id_obj`. -/
def idRemove (key : Bytes) : ObjectM Unit := do
  let _ ← idSearch key
  let (before, after) ← fromExcept (idSplit key (← get).idTree)
  modify fun ct => { ct with idTree := before ++ after.tail }

/-- `index_update_value` on `id_obj`. -/
def idUpdate (key value : Bytes) : ObjectM Unit := do
  let _ ← codeOf (idRemove key)
  idInsert key value

/-! ## `ofs_object_manager.c` -/

/-- A new `object_info_t`. -/
def initObjectInfo (objid : ℕ) : ObjectInfo :=
  { objid, inodeNo := 0, inodeCache := 0, rootVbn := 0, rootState := .empty, caches := [],
    objHndList := [], refCnt := 0 }

/-- `get_object_info` (lines 78–112); `obj_info_list` is ordered by the number. -/
def getObjectInfo (objid : ℕ) : ObjectM Unit := do
  let l := (← get).objInfoList
  if l.any (·.objid = objid) then throw .assertion
  else
    modify fun ct =>
      { ct with
        objInfoList := l.takeWhile (·.objid < objid) ++ initObjectInfo objid :: l.dropWhile (·.objid < objid) }

/-- `put_object_info` (lines 114–129). The caches are released last in the code, when
the object is off the list but still there. -/
def putObjectInfo (objid : ℕ) : ObjectM Unit := do
  releaseObjAllCache objid
  modify fun ct => { ct with objInfoList := ct.objInfoList.filter (·.objid ≠ objid) }

/-- `get_object_handle` (lines 131–153). -/
def getObjectHandle (objid : ℕ) : ObjectM HandlePtr := do
  let h := (← get).nextHandle
  modify fun ct => { ct with nextHandle := h + 1 }
  modifyInfo objid fun o => { o with objHndList := o.objHndList ++ [h], refCnt := uint32 (o.refCnt + 1) }
  return h

/-- `put_object_handle` (lines 155–162). -/
def putObjectHandle (objid : ℕ) (h : HandlePtr) : ObjectM Unit :=
  modifyInfo objid fun o =>
    { o with objHndList := o.objHndList.erase h, refCnt := uint32 (o.refCnt + (2 ^ 32 - 1)) }

/-- `recover_obj_inode` with `init_attr` (lines 70–75 and 164–184). -/
def recoverObjInode (objid inodeNo : ℕ) : ObjectM Unit := do
  let p ← indexBlockRead2 objid inodeNo
  modifyInfo objid fun o => { o with inodeCache := p, inodeNo, rootVbn := inodeNo }
  setCacheState p .clean

/-- `validate_obj_inode` (lines 186–241). The code of `index_update_value` is not looked at. -/
def validateObjInode (objid : ℕ) (ops : SystemOps) : ObjectM Unit := do
  let o ← getInfo objid
  if o.rootState ≠ .dirty then return ()
  else
    setCacheState o.inodeCache .dirty
    let newVbn := o.rootVbn
    modifyInfo objid fun o => { o with inodeNo := newVbn }
    if objid = baseObjId then modify fun ct => { ct with baseInodeNo := newVbn, dirty := true }
    else if objid = spaceObjId then modify fun ct => { ct with spaceInodeNo := newVbn, dirty := true }
    else if objid = objidObjId then modify fun ct => { ct with objidInodeNo := newVbn, dirty := true }
    else
      runSystemOps ops
      let _ ← codeOf (idUpdate (osU64ToBstr objid) (osU64ToBstr newVbn))

/-- `close_object` (lines 255–260) of an object without handles, as
`ofs_close_object_nolock` calls it. -/
def closeObject (objid : ℕ) (ops : SystemOps) : ObjectM Unit := do
  validateObjInode objid ops
  putObjectInfo objid

/-- `create_object_at_inode` (lines 302–352). -/
def createObjectAtInode (objid inodeNo : ℕ) : ObjectM HandlePtr := do
  getObjectInfo objid
  let p ← allocObjCache objid inodeNo
  modifyInfo objid fun o => { o with inodeCache := p, inodeNo, rootVbn := inodeNo }
  setCacheState p .dirty
  modifyInfo objid fun o => { o with rootState := .dirty }
  getObjectHandle objid

/-- `create_object` (lines 354–380); `ops` is what the allocation does. -/
def createObject (objid inodeNo : ℕ) (ops : SystemOps) : ObjectM HandlePtr := do
  runSystemOps ops
  allocBlock inodeNo (.inode objid)
  createObjectAtInode objid inodeNo

/-- `open_object` (lines 382–415). -/
def openObject (objid inodeNo : ℕ) : ObjectM HandlePtr := do
  getObjectInfo objid
  recoverObjInode objid inodeNo
  getObjectHandle objid

/-- `ofs_create_object_nolock` (lines 446–505), where the new object gets the inode
`inodeNo`. The code that undoes a failed insertion is left out: the key was
searched for before. -/
def ofsCreateObject (objid inodeNo : ℕ) (search : List ℕ) (alloc insert : SystemOps) : ObjectM HandlePtr := do
  assertThat (objid ≠ invalidObjid)
  if objid < reservedObjId then throw .objIdInvalid
  else if (← get).objInfoList.any (·.objid = objid) then throw .objExist
  else
    readIdBlocks search
    match ← codeOf (idSearch (u64Bytes objid)) with
    | .ok _ => throw .objExist
    | .error ret =>
      if ret ≠ .keyNotFound then throw ret
      else
        let h ← createObject objid inodeNo alloc
        runSystemOps insert
        idInsert (osU64ToBstr objid) (osU64ToBstr (← getInfo objid).inodeNo)
        return h

/-- `ofs_open_object_nolock` (lines 525–579). -/
def ofsOpenObject (objid : ℕ) (search : List ℕ) : ObjectM HandlePtr := do
  if (← get).objInfoList.any (·.objid = objid) then getObjectHandle objid
  else
    readIdBlocks search
    let value ← idSearch (u64Bytes objid)
    let inodeNo ← fromExcept (osBstrToU64 value)
    openObject objid inodeNo

/-- `ofs_close_object_nolock` (lines 634–672). -/
def ofsCloseObject (h : HandlePtr) (update : SystemOps) : ObjectM Unit := do
  match (← get).objInfoList.find? (h ∈ ·.objHndList) with
  | none => throw .memory
  | some o =>
    if o.refCnt = 0 then throw .manyTimesPut
    else
      putObjectHandle o.objid h
      if (← getInfo o.objid).refCnt = 0 then closeObject o.objid update

/-! ## The container -/

/-- `validate_all_objects` (lines 340–351 of `ofs_metadata_cache.c`): the user objects, then
the system objects, which come first in the list. -/
def validateAllObjects (updates : ℕ → SystemOps) : ObjectM Unit := do
  let l := (← get).objInfoList
  (l.filter (reservedObjId ≤ ·.objid)).forM fun o => validateObjInode o.objid (updates o.objid)
  (l.takeWhile (·.objid < reservedObjId)).forM fun o => validateObjInode o.objid (updates o.objid)

/-- `commit_container_modification` (lines 353–360). -/
def commitContainerModification (updates : ℕ → SystemOps) : ObjectM Unit := do
  validateAllObjects updates
  flushContainerCache
  cleanAllObjRootCache

/-- `create_system_objects` (lines 190–250 of `ofs_container_manager.c`), where the
objid object gets the inode `inodeNo`. The blocks of the first two inodes are not
handed to the allocator there; here they are seen to be free. -/
def createSystemObjects (inodeNo : ℕ) (ops : SystemOps) : ObjectM (List HandlePtr) := do
  allocBlock baseObjInode (.inode baseObjId)
  let base ← createObjectAtInode baseObjId baseObjInode
  runOp baseObjId .setName
  allocBlock spaceObjInode (.inode spaceObjId)
  let space ← createObjectAtInode spaceObjId spaceObjInode
  runOp spaceObjId .setName
  let objid ← createObject objidObjId inodeNo ops
  runOp objidObjId .setName
  modify fun ct =>
    { ct with
      baseInodeNo := baseObjInode, spaceInodeNo := spaceObjInode, objidInodeNo := inodeNo, dirty := true }
  return [base, space, objid]

/-- `open_system_objects` (lines 252–290). -/
def openSystemObjects : ObjectM (List HandlePtr) := do
  let base ← openObject baseObjId (← get).baseInodeNo
  let space ← openObject spaceObjId (← get).spaceInodeNo
  let objid ← openObject objidObjId (← get).objidInodeNo
  return [base, space, objid]

/-! ## Runs -/

/-- A call, with what happens to blocks and caches during it. -/
inductive Call
  | create (objid inodeNo : ℕ) (search : List ℕ) (alloc insert : SystemOps)
  | open (objid : ℕ) (search : List ℕ)
  | close (h : HandlePtr) (update : SystemOps)
  /-- a part of an operation on the tree of an object -/
  | index (objid : ℕ) (op : ObjectOp)
  | commit (updates : ℕ → SystemOps)

/-- A container with the handles it holds itself on the system objects and those its callers
hold, each with the number of the object it was given out for. -/
structure Session where
  ct : Container
  own : List (ℕ × HandlePtr)
  held : List (ℕ × HandlePtr)

/-- The handles of an object. -/
def handlesOf (objid : ℕ) (hs : List (ℕ × HandlePtr)) : List HandlePtr :=
  (hs.filter (·.1 = objid)).map Prod.snd

/-- The handles of an object that were given out and not closed. -/
def Session.outstanding (s : Session) (objid : ℕ) : List HandlePtr := handlesOf objid (s.own ++ s.held)

/-- A call that succeeds. The number of an object is a `uint64_t`. A handle is closed once, by the
caller that got it. -/
inductive Session.Step : Session → Call → Session → Prop
  | create {s : Session} {objid inodeNo : ℕ} {search : List ℕ} {alloc insert : SystemOps} {h : HandlePtr}
      {ct : Container} (hobjid : objid < 2 ^ 64)
      (hrun : ofsCreateObject objid inodeNo search alloc insert s.ct = .ok h ct) :
      Step s (.create objid inodeNo search alloc insert) { s with ct, held := s.held ++ [(objid, h)] }
  | open {s : Session} {objid : ℕ} {search : List ℕ} {h : HandlePtr} {ct : Container}
      (hobjid : objid < 2 ^ 64) (hrun : ofsOpenObject objid search s.ct = .ok h ct) :
      Step s (.open objid search) { s with ct, held := s.held ++ [(objid, h)] }
  | close {s : Session} {objid : ℕ} {h : HandlePtr} {update : SystemOps} {ct : Container}
      (hheld : (objid, h) ∈ s.held) (hrun : ofsCloseObject h update s.ct = .ok () ct) :
      Step s (.close h update) { s with ct, held := s.held.erase (objid, h) }
  | index {s : Session} {objid : ℕ} {op : ObjectOp} {ct : Container}
      (hrun : runOp objid op s.ct = .ok () ct) : Step s (.index objid op) { s with ct }
  | commit {s : Session} {updates : ℕ → SystemOps} {ct : Container}
      (hrun : commitContainerModification updates s.ct = .ok () ct) : Step s (.commit updates) { s with ct }

/-- The container before `ofs_create_container` and `ofs_open_container` register the system objects. -/
structure Container.Blank (ct : Container) : Prop where
  heap : ∀ p, ct.heap p = none
  metadataCache : ct.metadataCache = []
  objInfoList : ct.objInfoList = []

/-- `ofs_create_container` starts with no block in use. -/
structure Container.Fresh (ct : Container) : Prop extends ct.Blank where
  idTree : ct.idTree = []
  use : ∀ n, ct.use n = none

/-- `ofs_open_container` finds the blocks of the inodes in the super block and in the objid tree. -/
structure Container.Stored (ct : Container) (ids : List (ℕ × ℕ)) : Prop extends ct.Blank where
  idTree : ct.idTree = ids.map fun x => (osU64ToBstr x.1, osU64ToBstr x.2)
  sorted : ids.Pairwise fun a b => a.1 < b.1
  user : ∀ x ∈ ids, reservedObjId ≤ x.1 ∧ x.1 < invalidObjid
  numbers : ∀ n u, ct.use n = some u → n < 2 ^ 64
  onDisk : ∀ n u, ct.use n = some u → ct.onDisk n = true
  inode : ∀ n k, reservedObjId ≤ k → (ct.use n = some (.inode k) ↔ (k, n) ∈ ids)
  base : ct.use ct.baseInodeNo = some (.inode baseObjId)
  space : ct.use ct.spaceInodeNo = some (.inode spaceObjId)
  objid : ct.use ct.objidInodeNo = some (.inode objidObjId)

/-- The handles on the system objects. -/
def systemHandles (hs : List HandlePtr) : List (ℕ × HandlePtr) := [baseObjId, spaceObjId, objidObjId].zip hs

/-- A container that has just been created or opened. -/
inductive Session.Start : Session → Prop
  | create {ct₀ ct : Container} {inodeNo : ℕ} {ops : SystemOps} {hs : List HandlePtr} (hct : ct₀.Fresh)
      (hrun : createSystemObjects inodeNo ops ct₀ = .ok hs ct) : Start ⟨ct, systemHandles hs, []⟩
  | open {ct₀ ct : Container} {ids : List (ℕ × ℕ)} {hs : List HandlePtr} (hct : ct₀.Stored ids)
      (hrun : openSystemObjects ct₀ = .ok hs ct) : Start ⟨ct, systemHandles hs, []⟩

/-- The sessions that calls lead to, each of them allowed by `ok` in the session it finds. -/
inductive Session.Reached (ok : Session → Call → Prop) : Session → Prop
  | start {s : Session} (h : s.Start) : Reached ok s
  | step {s s' : Session} {c : Call} (h : Reached ok s) (hok : ok s c) (hstep : s.Step c s') : Reached ok s'

end IndexFs.Object
