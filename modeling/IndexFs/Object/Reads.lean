import IndexFs.Block.Pingpong
import IndexFs.Object.CoherentOps

/-!
# Reading blocks through the caches

`index_block_read2` of `object_system/ofs_metadata_cache.c` (lines 373–433) with the
content of the caches and a read that may fail. The cache is entered in both trees
before the block is read, and stays there when the read fails.

A call says what its two `OS_MALLOC`s and the disk do. The second `OS_MALLOC` is not
looked at: without a buffer `ofs_read_block_fixup` fails.

Results:

* `indexBlockRead_trees`: with a read that succeeds the trees are those of `indexBlockRead2`.
* `reads_verified_exact`: in a run of calls each one returns a block that was written
  or verified, or fails and leaves the trees alone, exactly if every read that goes
  to the disk succeeds.
* `read_failed_then_cached`: a block that was refused is returned by the next call.
-/

namespace IndexFs.Object

open IndexFs.Block

/-- The container and the buffers of its caches; a buffer that was never read into holds anything. -/
structure ReadState where
  ct : Container
  ib : CachePtr → Option BlockImage

abbrev ReadM := EStateM ErrorCode ReadState

/-- A call of `index_block_read2`. -/
structure ReadCall where
  objid : ℕ
  vbn : ℕ
  blkId : ℕ
  /-- `OS_MALLOC` of the cache succeeds. -/
  cacheAlloc : Bool
  /-- `OS_MALLOC` of its buffer succeeds. -/
  ibAlloc : Bool
  /-- what `ofs_read_block` finds -/
  read : Except ErrorCode BlockImage

/-- A function that does not look at buffers. -/
def onTrees {α : Type} (x : ObjectM α) : ReadM α := zoom ReadState.ct (fun ct s => { s with ct }) x

/-- `ofs_read_block_fixup` into the buffer of `p`. -/
def readBlockFixup (p : CachePtr) (c : ReadCall) : ReadM Unit := do
  if !c.ibAlloc then throw .blockParameter
  let raw ← fromExcept c.read
  modify fun s => { s with ib := Function.update s.ib p (some raw) }
  fromExcept (verifyBlock raw c.blkId blockSize)
  let blk ← fromExcept (fixupBlock raw)
  modify fun s => { s with ib := Function.update s.ib p (some blk) }

/-- The block is in neither tree (lines 407–432). -/
def loadBlock (c : ReadCall) : ReadM CachePtr := do
  if !c.cacheAlloc then throw .allocateMemory
  let p ← onTrees (allocObjCache c.objid c.vbn)
  readBlockFixup p c
  onTrees (setCacheState p .clean)
  return p

/-- `index_block_read2` (lines 373–433). -/
def indexBlockRead (c : ReadCall) : ReadM CachePtr := do
  let o ← onTrees (getInfo c.objid)
  match ← fromExcept (avlFind (← get).ct.heap c.vbn o.caches) with
  | some p => return p
  | none =>
    match ← fromExcept (avlFind (← get).ct.heap c.vbn (← get).ct.metadataCache) with
    | some p =>
      let caches ← onTrees (avlAdd o.caches p)
      onTrees (modifyInfo c.objid fun o => { o with caches })
      return p
    | none => loadBlock c

/-! ## What a call has to do -/

/-- `img` has passed `verify_block` and `fixup_block` in the call. -/
def ReadCall.Passes (c : ReadCall) (img : BlockImage) : Prop :=
  ∃ raw, c.read = .ok raw ∧ verifyBlock raw c.blkId blockSize = .ok () ∧ fixupBlock raw = .ok img

/-- Neither tree has a cache with the number of the call. -/
def Misses (s : ReadState) (c : ReadCall) : Prop :=
  (∀ o ∈ s.ct.objInfoList, o.objid = c.objid → avlFind s.ct.heap c.vbn o.caches = .ok none) ∧
    avlFind s.ct.heap c.vbn s.ct.metadataCache = .ok none

/-- The call returns a cache with its number whose block is in `Good`; or it fails, the trees are as
before, and so is the way to the disk. -/
def CallMeets (Good : ℕ → BlockImage → Prop) (c : ReadCall) (s : ReadState) : Prop :=
  Ends (indexBlockRead c) s
    (fun p s' => ∃ k img, s'.ct.heap p = some k ∧ k.vbn = c.vbn ∧ s'.ib p = some img ∧ Good c.vbn img)
    fun _ s' => s'.ct.objInfoList = s.ct.objInfoList ∧ s'.ct.metadataCache = s.ct.metadataCache ∧ Misses s' c

/-- The blocks of a number that were written by this process, or verified before or in the call. -/
def GoodAfter (Good : ℕ → BlockImage → Prop) (c : ReadCall) (vbn : ℕ) (img : BlockImage) : Prop :=
  Good vbn img ∨ vbn = c.vbn ∧ c.Passes img

/-- Every call of a run does what it has to. -/
def RunMeets (Good : ℕ → BlockImage → Prop) : List ReadCall → ReadState → Prop
  | [], _ => True
  | c :: calls, s =>
    CallMeets (GoodAfter Good c) c s ∧ RunMeets (GoodAfter Good c) calls (finalState (indexBlockRead c) s)

/-- A call that goes to the disk gets a block that passes, or no memory for a cache. -/
def ReadCall.Accepted (c : ReadCall) (s : ReadState) : Prop :=
  Misses s c → c.cacheAlloc = true → c.ibAlloc = true ∧ ∃ img, c.Passes img

/-- So it is in every call of a run. -/
def RunAccepted : List ReadCall → ReadState → Prop
  | [], _ => True
  | c :: calls, s => c.Accepted s ∧ RunAccepted calls (finalState (indexBlockRead c) s)

/-- Two trees of caches that are there, and whose blocks are in `Good`. -/
structure Indexed (Good : ℕ → BlockImage → Prop) (s : ReadState) : Prop where
  objids : (s.ct.objInfoList.map ObjectInfo.objid).Nodup
  caches : ∀ o ∈ s.ct.objInfoList, ∀ p ∈ o.caches, p < s.ct.nextCache ∧
    ∃ k img, s.ct.heap p = some k ∧ s.ib p = some img ∧ Good k.vbn img
  metadata : ∀ p ∈ s.ct.metadataCache, p < s.ct.nextCache ∧
    ∃ k img, s.ct.heap p = some k ∧ s.ib p = some img ∧ Good k.vbn img

/-! ## Searches that end -/

section Trees

variable {ct : Container} {l : List CachePtr} {p : CachePtr} {k : BlockCache} {o : ObjectInfo} {vbn : ℕ}
  {heap heap' : CachePtr → Option BlockCache}

/-- Over caches that are there a search finds one or none. -/
theorem avlFind_live (h : ∀ q ∈ l, ∃ c, heap q = some c) (vbn : ℕ) :
    avlFind heap vbn l = .ok none ∨ ∃ p, avlFind heap vbn l = .ok (some p) := by
  induction l with
  | nil => exact .inl rfl
  | cons q l ih =>
    obtain ⟨c, hc⟩ := h q (by simp)
    unfold avlFind
    rw [hc]
    dsimp only
    split_ifs
    · exact .inr ⟨q, rfl⟩
    · exact ih fun q' hq' => h q' (List.mem_cons_of_mem _ hq')

theorem avlFind_congr (h : ∀ q ∈ l, heap q = heap' q) : avlFind heap vbn l = avlFind heap' vbn l := by
  induction l with
  | nil => rfl
  | cons q l ih =>
    unfold avlFind
    rw [h q List.mem_cons_self, ih fun q' hq' => h q' (List.mem_cons_of_mem _ hq')]

theorem getInfo_ends (hids : (ct.objInfoList.map ObjectInfo.objid).Nodup) (ho : o ∈ ct.objInfoList) :
    Ends (getInfo o.objid) ct (fun o' ct' => o' = o ∧ ct' = ct) fun _ _ => False := by
  have hfind : ct.objInfoList.find? (·.objid = o.objid) = some o := by
    have hsome : (ct.objInfoList.find? (·.objid = o.objid)).isSome :=
      List.find?_isSome.mpr ⟨o, ho, decide_eq_true rfl⟩
    obtain ⟨o', ho'⟩ := Option.isSome_iff_exists.mp hsome
    have hid : o'.objid = o.objid := by simpa using List.find?_some ho'
    rw [ho', List.inj_on_of_nodup_map hids (List.mem_of_find?_eq_some ho') ho hid]
  unfold getInfo
  rw [ends_bind, ends_get, hfind]
  exact ⟨rfl, rfl⟩

theorem getCache_ends (hk : ct.heap p = some k) :
    Ends (getCache p) ct (fun k' ct' => k' = k ∧ ct' = ct) fun _ _ => False := by
  unfold getCache
  rw [ends_bind, ends_get, hk]
  exact ⟨rfl, rfl⟩

theorem setCacheClean_ends (hk : ct.heap p = some k) :
    Ends (setCacheState p .clean) ct (fun _ ct' =>
      ct' = { ct with heap := Function.update ct.heap p (some ⟨k.vbn, .clean, false⟩) }) fun _ _ => False := by
  unfold setCacheState
  refine (getCache_ends hk).seq fun k' ct' hpost => ?_
  obtain ⟨rfl, rfl⟩ := hpost
  rfl

theorem avlAdd_ends (hk : ct.heap p = some k) (hnone : avlFind ct.heap k.vbn l = .ok none) :
    Ends (avlAdd l p) ct (fun l' ct' => l' = l ++ [p] ∧ ct' = ct) fun _ _ => False := by
  unfold avlAdd
  refine (getCache_ends hk).seq fun k' ct' hpost => ?_
  obtain ⟨rfl, rfl⟩ := hpost
  rw [ends_bind, ends_get, hnone, ends_bind, ends_fromExcept_ok]
  exact ⟨rfl, rfl⟩

theorem setCaches_eq (hids : (ct.objInfoList.map ObjectInfo.objid).Nodup) (ho : o ∈ ct.objInfoList) (l : List CachePtr) :
    Ends (modifyInfo o.objid fun x => { x with caches := o.caches ++ l }) ct
      (fun _ ct' => ct' = ct.mapInfo o.objid fun x => { x with caches := x.caches ++ l }) fun _ _ => False :=
  setCaches_spec hids ho (· ++ l)

theorem insertObjCache_ends (hids : (ct.objInfoList.map ObjectInfo.objid).Nodup) (ho : o ∈ ct.objInfoList)
    (hk : ct.heap p = some k) (hcaches : avlFind ct.heap k.vbn o.caches = .ok none)
    (hmeta : avlFind ct.heap k.vbn ct.metadataCache = .ok none) :
    Ends (insertObjCache o.objid p) ct (fun _ ct' => ct' = ct.addBoth o.objid p) fun _ _ => False := by
  unfold insertObjCache
  refine (getInfo_ends hids ho).seq fun o' ct' hpost => ?_
  obtain ⟨rfl, rfl⟩ := hpost
  refine (avlAdd_ends hk hcaches).seq fun l ct₂ hpost => ?_
  obtain ⟨rfl, rfl⟩ := hpost
  refine (setCaches_eq hids ho [p]).seq fun _ ct₃ hpost => ?_
  subst hpost
  rw [ends_bind, ends_get]
  have hadd : Ends (avlAdd ct₂.metadataCache p) (ct₂.mapInfo o'.objid fun x => { x with caches := x.caches ++ [p] })
      _ _ := avlAdd_ends hk hmeta
  refine hadd.seq fun l ct₄ hpost => ?_
  obtain ⟨rfl, rfl⟩ := hpost
  rfl

theorem allocObjCache_ends (hids : (ct.objInfoList.map ObjectInfo.objid).Nodup) (ho : o ∈ ct.objInfoList)
    (hlive : ∀ q, q ∈ o.caches ∨ q ∈ ct.metadataCache → q < ct.nextCache)
    (hcaches : avlFind ct.heap vbn o.caches = .ok none) (hmeta : avlFind ct.heap vbn ct.metadataCache = .ok none) :
    Ends (allocObjCache o.objid vbn) ct (fun q ct' => q = ct.nextCache ∧ ct' = ct.newCache o.objid vbn)
      fun _ _ => False := by
  have hheap : ∀ q, q ∈ o.caches ∨ q ∈ ct.metadataCache →
      ct.heap q = Function.update ct.heap ct.nextCache (some ⟨vbn, .empty, false⟩) q := fun q hq =>
    (Function.update_of_ne (hlive q hq).ne _ _).symm
  rw [avlFind_congr fun q hq => hheap q (.inl hq)] at hcaches
  rw [avlFind_congr fun q hq => hheap q (.inr hq)] at hmeta
  unfold allocObjCache putCache
  rw [ends_bind, ends_get, ends_bind, ends_modify, ends_bind, ends_modify]
  have hinsert : Ends (insertObjCache o.objid ct.nextCache) { ct with
      nextCache := ct.nextCache + 1
      heap := Function.update ct.heap ct.nextCache (some ⟨vbn, .empty, false⟩) } _ _ :=
    insertObjCache_ends hids ho (Function.update_self _ _ _) hcaches hmeta
  refine hinsert.seq fun _ ct' hpost => ?_
  exact ⟨rfl, hpost⟩

end Trees

/-! ## One call -/

section Step

variable {Good : ℕ → BlockImage → Prop} {s : ReadState} {c : ReadCall} {o : ObjectInfo} {p : CachePtr}

/-- Sequencing behind a part that works on the trees and succeeds. -/
theorem onTrees_seq {α β : Type} {x : ObjectM α} {f : α → ReadM β} {Q : α → Container → Prop}
    {R : β → ReadState → Prop} {F : ErrorCode → ReadState → Prop} (hx : Ends x s.ct Q fun _ _ => False)
    (hf : ∀ a ct, Q a ct → Ends (f a) { s with ct } R F) : Ends (onTrees x >>= f) s R F := by
  refine Ends.bind (ends_zoom.mpr (hx.mono hf fun _ _ h => h.elim))

/-- The cache is in the tree of the object. -/
theorem indexBlockRead_object (hs : Indexed Good s) (ho : o ∈ s.ct.objInfoList) (hid : o.objid = c.objid)
    (hfind : avlFind s.ct.heap c.vbn o.caches = .ok (some p)) :
    Ends (indexBlockRead c) s (fun q s' => q = p ∧ s' = s) fun _ _ => False := by
  unfold indexBlockRead
  rw [← hid]
  refine onTrees_seq (getInfo_ends hs.objids ho) fun o' ct hpost => ?_
  obtain ⟨rfl, rfl⟩ := hpost
  rw [ends_bind, ends_get, hfind, ends_bind, ends_fromExcept_ok]
  exact ⟨rfl, rfl⟩

/-- The cache is in the tree of the container, and joins that of the object. -/
theorem indexBlockRead_container (hs : Indexed Good s) (ho : o ∈ s.ct.objInfoList) (hid : o.objid = c.objid)
    (hnone : avlFind s.ct.heap c.vbn o.caches = .ok none)
    (hfind : avlFind s.ct.heap c.vbn s.ct.metadataCache = .ok (some p)) :
    Ends (indexBlockRead c) s (fun q s' => q = p ∧
      s' = { s with ct := s.ct.mapInfo c.objid fun o => { o with caches := o.caches ++ [p] } }) fun _ _ => False := by
  obtain ⟨-, k, hk, hvbn⟩ := avlFind_some hfind
  unfold indexBlockRead
  rw [← hid]
  refine onTrees_seq (getInfo_ends hs.objids ho) fun o' ct hpost => ?_
  obtain ⟨rfl, rfl⟩ := hpost
  rw [ends_bind, ends_get, hnone, ends_bind, ends_fromExcept_ok]
  dsimp only
  rw [ends_bind, ends_get, ends_bind, ends_get, hfind, ends_bind, ends_fromExcept_ok]
  refine onTrees_seq (avlAdd_ends hk (by rwa [hvbn])) fun l ct hpost => ?_
  obtain ⟨rfl, rfl⟩ := hpost
  refine onTrees_seq (setCaches_eq hs.objids ho [p]) fun _ ct hpost => ?_
  subst hpost
  exact ⟨rfl, rfl⟩

/-- The cache is in neither tree. -/
theorem indexBlockRead_miss (hs : Indexed Good s) (ho : o ∈ s.ct.objInfoList) (hid : o.objid = c.objid)
    (hmiss : Misses s c) {Q : CachePtr → ReadState → Prop} {F : ErrorCode → ReadState → Prop}
    (h : Ends (loadBlock c) s Q F) : Ends (indexBlockRead c) s Q F := by
  have hnone := hmiss.1 o ho hid
  unfold indexBlockRead
  rw [← hid]
  refine onTrees_seq (getInfo_ends hs.objids ho) fun o' ct hpost => ?_
  obtain ⟨rfl, rfl⟩ := hpost
  rw [ends_bind, ends_get, hnone, ends_bind, ends_fromExcept_ok]
  dsimp only
  rw [ends_bind, ends_get, ends_bind, ends_get, hmiss.2, ends_bind, ends_fromExcept_ok]
  exact h

/-- One of the three searches comes to an end. -/
theorem Indexed.cases (hs : Indexed Good s) (ho : o ∈ s.ct.objInfoList) (hid : o.objid = c.objid) :
    (∃ p, avlFind s.ct.heap c.vbn o.caches = .ok (some p)) ∨
      (avlFind s.ct.heap c.vbn o.caches = .ok none ∧
        ∃ p, avlFind s.ct.heap c.vbn s.ct.metadataCache = .ok (some p)) ∨ Misses s c := by
  have hlive : ∀ q ∈ o.caches, ∃ k, s.ct.heap q = some k := fun q hq =>
    let ⟨_, k, _, hk, _⟩ := hs.caches o ho q hq
    ⟨k, hk⟩
  have hlive' : ∀ q ∈ s.ct.metadataCache, ∃ k, s.ct.heap q = some k := fun q hq =>
    let ⟨_, k, _, hk, _⟩ := hs.metadata q hq
    ⟨k, hk⟩
  rcases avlFind_live hlive c.vbn with hnone | hfind
  · rcases avlFind_live hlive' c.vbn with hnone' | hfind'
    · refine .inr (.inr ⟨fun o' ho' hid' => ?_, hnone'⟩)
      rw [List.inj_on_of_nodup_map hs.objids ho' ho (hid'.trans hid.symm)]
      exact hnone
    · exact .inr (.inl ⟨hnone, hfind'⟩)
  · exact .inl hfind

/-- The container after `allocObjCache` of a call. -/
theorem loadBlock_alloc (hs : Indexed Good s) (ho : o ∈ s.ct.objInfoList) (hid : o.objid = c.objid)
    (hmiss : Misses s c) (halloc : c.cacheAlloc = true) {Q : CachePtr → ReadState → Prop}
    {F : ErrorCode → ReadState → Prop}
    (h : Ends (do
      readBlockFixup s.ct.nextCache c
      onTrees (setCacheState s.ct.nextCache .clean)
      return s.ct.nextCache) { s with ct := s.ct.newCache c.objid c.vbn } Q F) : Ends (loadBlock c) s Q F := by
  have hnew : ∀ q, q ∈ o.caches ∨ q ∈ s.ct.metadataCache → q < s.ct.nextCache := by
    rintro q (hq | hq)
    · exact (hs.caches o ho q hq).1
    · exact (hs.metadata q hq).1
  unfold loadBlock
  rw [halloc, ← hid]
  refine onTrees_seq (allocObjCache_ends hs.objids ho hnew (hmiss.1 o ho hid) hmiss.2) fun p ct hpost => ?_
  obtain ⟨rfl, rfl⟩ := hpost
  rw [hid]
  exact h

theorem readBlockFixup_ends (p : CachePtr) (c : ReadCall) (s : ReadState) :
    Ends (readBlockFixup p c) s
      (fun _ s' => c.ibAlloc = true ∧ ∃ img, c.Passes img ∧ s' = { s with ib := Function.update s.ib p (some img) })
      fun _ s' => s'.ct = s.ct ∧ ¬ (c.ibAlloc = true ∧ ∃ img, c.Passes img) := by
  unfold readBlockFixup
  cases hib : c.ibAlloc with
  | false => exact ⟨rfl, by simp⟩
  | true =>
    dsimp only
    rw [if_neg (show ¬ (!true) = true by decide), ends_bind]
    cases hread : c.read with
    | error e => exact ⟨rfl, by simp [ReadCall.Passes, hread]⟩
    | ok raw =>
      rw [ends_fromExcept_ok, ends_bind, ends_modify, ends_bind]
      cases hverify : verifyBlock raw c.blkId blockSize with
      | error e => exact ⟨rfl, by simp [ReadCall.Passes, hread, hverify]⟩
      | ok u =>
        rw [ends_fromExcept_ok, ends_bind]
        cases hfixup : fixupBlock raw with
        | error e => exact ⟨rfl, by simp [ReadCall.Passes, hread, hfixup]⟩
        | ok img =>
          refine ⟨rfl, img, ⟨raw, hread, hverify, hfixup⟩, ?_⟩
          dsimp only
          rw [Function.update_idem]

/-- With a read that succeeds the trees are those of `indexBlockRead2`. -/
theorem indexBlockRead_trees (halloc : c.cacheAlloc = true) (hib : c.ibAlloc = true) (himg : ∃ img, c.Passes img) :
    Projects ReadState.ct (indexBlockRead c) (indexBlockRead2 c.objid c.vbn) := by
  have hread : ∀ p s, Ends (readBlockFixup p c) s (fun _ s' => s'.ct = s.ct) fun _ _ => False := by
    intro p s
    refine (readBlockFixup_ends p c s).mono (fun _ s' h => ?_) fun _ _ h => h.2 ⟨hib, himg⟩
    obtain ⟨-, img, -, rfl⟩ := h
    rfl
  have hzoom : ∀ {α : Type} (x : ObjectM α), Projects ReadState.ct (onTrees x) x := fun x =>
    Projects.zoom (fun _ _ => rfl) x
  unfold indexBlockRead indexBlockRead2
  refine (hzoom _).bind fun o => Projects.get fun s => (Projects.fromExcept _).bind fun r => ?_
  cases r with
  | some p => exact Projects.pure p
  | none =>
    refine Projects.get fun s => Projects.get fun s' => (Projects.fromExcept _).bind fun r => ?_
    cases r with
    | some p => exact (hzoom _).bind fun l => (hzoom _).bind fun _ => Projects.pure p
    | none =>
      dsimp only
      unfold loadBlock
      rw [halloc]
      exact (hzoom _).bind fun p => Projects.skip (hread p) fun _ => (hzoom _).bind fun _ => Projects.pure p

/-! ## Trees that stay in order -/

theorem Indexed.mono {Good' : ℕ → BlockImage → Prop} (hs : Indexed Good s) (hG : ∀ n img, Good n img → Good' n img) :
    Indexed Good' s where
  objids := hs.objids
  caches o ho p hp := by
    obtain ⟨hlt, k, img, hk, himg, hgood⟩ := hs.caches o ho p hp
    exact ⟨hlt, k, img, hk, himg, hG _ _ hgood⟩
  metadata p hp := by
    obtain ⟨hlt, k, img, hk, himg, hgood⟩ := hs.metadata p hp
    exact ⟨hlt, k, img, hk, himg, hG _ _ hgood⟩

/-- A cache of the container joins the tree of an object. -/
theorem Indexed.join (hs : Indexed Good s) (objid : ℕ) (hp : p ∈ s.ct.metadataCache) :
    Indexed Good { s with ct := s.ct.mapInfo objid fun o => { o with caches := o.caches ++ [p] } } where
  objids := by
    have hf : ∀ o : ObjectInfo, ({ o with caches := o.caches ++ [p] } : ObjectInfo).objid = o.objid := fun _ => rfl
    rw [mapInfo_objids hf]
    exact hs.objids
  caches := by
    refine List.forall_mem_map.mpr fun o ho q hq => ?_
    unfold atObj at hq
    split_ifs at hq with hid
    · rcases List.mem_append.mp hq with hq | hq
      · exact hs.caches o ho q hq
      · rw [List.mem_singleton.mp hq]
        exact hs.metadata p hp
    · exact hs.caches o ho q hq
  metadata := hs.metadata

/-- The state after a block was read into a new cache. -/
def ReadState.loaded (s : ReadState) (c : ReadCall) (img : BlockImage) : ReadState where
  ct := { s.ct.newCache c.objid c.vbn with
    heap := Function.update (s.ct.newCache c.objid c.vbn).heap s.ct.nextCache (some ⟨c.vbn, .clean, false⟩) }
  ib := Function.update s.ib s.ct.nextCache (some img)

theorem Indexed.load (hs : Indexed Good s) {img : BlockImage} (hgood : Good c.vbn img) :
    Indexed Good (s.loaded c img) := by
  have hnew : s.ct.nextCache < s.ct.nextCache + 1 ∧ ∃ k img', (s.loaded c img).ct.heap s.ct.nextCache = some k ∧
      (s.loaded c img).ib s.ct.nextCache = some img' ∧ Good k.vbn img' :=
    ⟨Nat.lt_succ_self _, _, img, Function.update_self _ _ _, Function.update_self _ _ _, hgood⟩
  have hkeep : ∀ {q}, (q < s.ct.nextCache ∧ ∃ k img', s.ct.heap q = some k ∧ s.ib q = some img' ∧ Good k.vbn img') →
      q < s.ct.nextCache + 1 ∧ ∃ k img', (s.loaded c img).ct.heap q = some k ∧ (s.loaded c img).ib q = some img' ∧
        Good k.vbn img' := by
    rintro q ⟨hlt, k, img', hk, himg, hg⟩
    refine ⟨hlt.trans (Nat.lt_succ_self _), k, img', ?_, ?_, hg⟩
    · show Function.update (Function.update s.ct.heap _ _) _ _ q = _
      rw [Function.update_of_ne hlt.ne, Function.update_of_ne hlt.ne, hk]
    · exact (Function.update_of_ne hlt.ne _ _).trans himg
  have hf : ∀ o : ObjectInfo, ({ o with caches := o.caches ++ [s.ct.nextCache] } : ObjectInfo).objid = o.objid :=
    fun _ => rfl
  refine ⟨(mapInfo_objids hf).symm ▸ hs.objids, List.forall_mem_map.mpr fun o ho q hq => ?_, fun q hq => ?_⟩
  · unfold atObj at hq
    split_ifs at hq with hid
    · rcases List.mem_append.mp hq with hq | hq
      · exact hkeep (hs.caches o ho q hq)
      · rw [List.mem_singleton.mp hq]
        exact hnew
    · exact hkeep (hs.caches o ho q hq)
  · rcases List.mem_append.mp hq with hq | hq
    · exact hkeep (hs.metadata q hq)
    · rw [List.mem_singleton.mp hq]
      exact hnew

/-! ## Runs of calls -/

/-- A call that is accepted returns a block that is good, and the trees stay in order; or there is no memory,
and nothing has happened. -/
theorem indexBlockRead_accepted (hs : Indexed Good s) (ho : ∃ o ∈ s.ct.objInfoList, o.objid = c.objid)
    (hacc : c.Accepted s) :
    Ends (indexBlockRead c) s
      (fun p s' => (∃ k img, s'.ct.heap p = some k ∧ k.vbn = c.vbn ∧ s'.ib p = some img ∧ GoodAfter Good c c.vbn img) ∧
        Indexed (GoodAfter Good c) s' ∧ s'.ct.objInfoList.map ObjectInfo.objid = s.ct.objInfoList.map ObjectInfo.objid)
      fun _ s' => s' = s ∧ Misses s c := by
  obtain ⟨o, ho, hid⟩ := ho
  have hG : ∀ n img, Good n img → GoodAfter Good c n img := fun _ _ => .inl
  -- the cache that a search found
  have hfound : ∀ {l p}, (∀ q ∈ l, q < s.ct.nextCache ∧ ∃ k img, s.ct.heap q = some k ∧ s.ib q = some img ∧
      Good k.vbn img) → avlFind s.ct.heap c.vbn l = .ok (some p) →
      ∃ k img, s.ct.heap p = some k ∧ k.vbn = c.vbn ∧ s.ib p = some img ∧ GoodAfter Good c c.vbn img := by
    intro l p hl hfind
    obtain ⟨hp, k, hk, hvbn⟩ := avlFind_some hfind
    obtain ⟨-, k', img, hk', himg, hgood⟩ := hl p hp
    obtain rfl : k = k' := Option.some.inj (hk.symm.trans hk')
    exact ⟨k, img, hk, hvbn, himg, .inl (hvbn ▸ hgood)⟩
  rcases hs.cases ho hid with ⟨p, hfind⟩ | ⟨hnone, p, hfind⟩ | hmiss
  · refine (indexBlockRead_object hs ho hid hfind).mono (fun q s' hpost => ?_) fun _ _ h => h.elim
    obtain ⟨rfl, rfl⟩ := hpost
    exact ⟨hfound (hs.caches o ho) hfind, hs.mono hG, rfl⟩
  · refine (indexBlockRead_container hs ho hid hnone hfind).mono (fun q s' hpost => ?_) fun _ _ h => h.elim
    obtain ⟨rfl, rfl⟩ := hpost
    have hf : ∀ o : ObjectInfo, ({ o with caches := o.caches ++ [q] } : ObjectInfo).objid = o.objid := fun _ => rfl
    exact ⟨hfound hs.metadata hfind, (hs.join _ (avlFind_some hfind).1).mono hG, mapInfo_objids hf⟩
  · refine indexBlockRead_miss hs ho hid hmiss ?_
    cases halloc : c.cacheAlloc with
    | false =>
      unfold loadBlock
      rw [halloc]
      exact ⟨rfl, hmiss⟩
    | true =>
      refine loadBlock_alloc hs ho hid hmiss halloc ?_
      refine (readBlockFixup_ends _ _ _).seq' (fun _ s' hpost => ?_) fun _ _ hpost => (hpost.2 (hacc hmiss halloc)).elim
      obtain ⟨-, img, himg, rfl⟩ := hpost
      have hgood : GoodAfter Good c c.vbn img := .inr ⟨rfl, himg⟩
      have hnew : (s.ct.newCache c.objid c.vbn).heap s.ct.nextCache = some ⟨c.vbn, .empty, false⟩ :=
        Function.update_self _ _ _
      refine onTrees_seq (setCacheClean_ends hnew) fun _ ct hpost => ?_
      subst hpost
      have hf : ∀ o : ObjectInfo, ({ o with caches := o.caches ++ [s.ct.nextCache] } : ObjectInfo).objid = o.objid :=
        fun _ => rfl
      exact ⟨⟨_, img, Function.update_self _ _ _, rfl, Function.update_self _ _ _, hgood⟩,
        (hs.mono hG).load hgood, mapInfo_objids hf⟩

/-- A read that fails leaves its cache in the tree of the container. -/
theorem indexBlockRead_refused (hs : Indexed Good s) (ho : ∃ o ∈ s.ct.objInfoList, o.objid = c.objid)
    (hacc : ¬ c.Accepted s) : Ends (indexBlockRead c) s (fun _ _ => False)
      fun _ s' => s'.ct.metadataCache = s.ct.metadataCache ++ [s.ct.nextCache] := by
  obtain ⟨o, ho, hid⟩ := ho
  unfold ReadCall.Accepted at hacc
  push Not at hacc
  obtain ⟨hmiss, halloc, hfail⟩ := hacc
  refine indexBlockRead_miss hs ho hid hmiss (loadBlock_alloc hs ho hid hmiss halloc ?_)
  refine (readBlockFixup_ends _ _ _).seq' (fun _ s' hpost => ?_) fun _ s' hpost => ?_
  · obtain ⟨hib, img, himg, -⟩ := hpost
    exact absurd himg (hfail hib img)
  · rw [hpost.1]
    rfl

/-- Each call of a run returns a block that was written or verified, or fails and changes nothing, exactly
if every read that goes to the disk is accepted. -/
theorem reads_verified_exact (calls : List ReadCall) (hs : Indexed Good s)
    (hobj : ∀ c ∈ calls, ∃ o ∈ s.ct.objInfoList, o.objid = c.objid) : RunMeets Good calls s ↔ RunAccepted calls s := by
  induction calls generalizing s Good with
  | nil => exact Iff.rfl
  | cons c calls ih =>
    have ho := hobj c List.mem_cons_self
    by_cases hacc : c.Accepted s
    · have hstep := indexBlockRead_accepted hs ho hacc
      have hmeets : CallMeets (GoodAfter Good c) c s :=
        hstep.mono (fun p s' h => h.1) fun e s' h => ⟨by rw [h.1], by rw [h.1], h.1 ▸ h.2⟩
      have hnext : Indexed (GoodAfter Good c) (finalState (indexBlockRead c) s) ∧
          (finalState (indexBlockRead c) s).ct.objInfoList.map ObjectInfo.objid =
            s.ct.objInfoList.map ObjectInfo.objid :=
        (hstep.mono (fun p s' h => h.2) fun e s' h => ⟨h.1 ▸ hs.mono fun _ _ => .inl, by rw [h.1]⟩).finalState
      have hobj' : ∀ c' ∈ calls, ∃ o ∈ (finalState (indexBlockRead c) s).ct.objInfoList, o.objid = c'.objid := by
        intro c' hc'
        rw [← List.mem_map, hnext.2, List.mem_map]
        exact hobj c' (List.mem_cons_of_mem _ hc')
      exact and_congr (iff_of_true hmeets hacc) (ih hnext.1 hobj')
    · have hno : ¬ CallMeets (GoodAfter Good c) c s := by
        intro hmeets
        have h := hmeets.and (indexBlockRead_refused hs ho hacc)
        unfold Ends at h
        cases hrun : indexBlockRead c s with
        | ok p s' =>
          rw [hrun] at h
          exact h.2
        | error e s' =>
          rw [hrun] at h
          exact absurd (h.1.2.1.symm.trans h.2) (by simp)
      exact iff_of_false (fun h => hno h.1) fun h => hacc h.1

end Step

/-- A container with one open object and no cache. -/
def emptyTrees : ReadState where
  ct :=
    { heap := fun _ => none
      nextCache := 0
      metadataCache := []
      objInfoList := [⟨200, 9, 0, 9, .clean, [], [], 1⟩]
      nextHandle := 0
      idTree := []
      baseInodeNo := 1
      spaceInodeNo := 2
      objidInodeNo := 3
      dirty := false
      use := fun _ => none
      onDisk := fun _ => false }
  ib := fun _ => none

/-- A block of zeros. -/
def blankBlock : BlockImage := ⟨0, 0, 0, 0, 0, List.replicate (blockSize - blockHeadSize - 2) 0, 0⟩

/-- The block 7 of the object is looked for, and the disk has zeros there. -/
def blankRead : ReadCall := ⟨200, 7, 0x58444E49, true, true, .ok blankBlock⟩

theorem emptyTrees_indexed : Indexed (fun _ _ => False) emptyTrees where
  objids := by simp [emptyTrees]
  caches := by simp [emptyTrees]
  metadata := by simp [emptyTrees]

/-- A block of the index of an object, as it is on the disk. -/
def indexImage : BlockImage :=
  assembleBlock { blankBlock with blkId := 0x58444E49, allocSize := blockSize, realSize := blockHeadSize }

/-- The block 8 of the object is looked for. -/
def indexRead : ReadCall := ⟨200, 8, 0x58444E49, true, true, .ok indexImage⟩

/-- The same block, when the disk does not answer. -/
def cachedRead : ReadCall := { indexRead with read := .error .disk }

/-- A block passes and is then found in the tree of the object, whatever the disk says; a block of zeros
ends the run. -/
theorem reads_verified_exact_cached : RunMeets (fun _ _ => False) [indexRead, cachedRead] emptyTrees ∧
    ¬ RunMeets (fun _ _ => False) [indexRead, cachedRead, blankRead] emptyTrees := by
  have hindex : ∀ s, indexRead.Accepted s := fun _ _ _ => ⟨rfl, _, indexImage, rfl, rfl, rfl⟩
  have hcached : cachedRead.Accepted (finalState (indexBlockRead indexRead) emptyTrees) := by
    intro hmiss
    have hnone : (.ok (some 0) : Except ErrorCode (Option CachePtr)) = .ok none := hmiss.2
    cases hnone
  have hopen : ∀ c ∈ [indexRead, cachedRead, blankRead], ∃ o ∈ emptyTrees.ct.objInfoList, o.objid = c.objid := by
    simp [emptyTrees, indexRead, cachedRead, blankRead]
  refine ⟨(reads_verified_exact [indexRead, cachedRead] emptyTrees_indexed fun c hc => hopen c ?_).mpr
    ⟨hindex _, hcached, trivial⟩, fun hmeets => ?_⟩
  · simp only [List.mem_cons, List.not_mem_nil, or_false] at hc ⊢
    tauto
  · obtain ⟨-, -, hblank, -⟩ := (reads_verified_exact _ emptyTrees_indexed hopen).mp hmeets
    -- the tree of the object has the block 8 alone
    have hmiss : Misses (finalState (indexBlockRead cachedRead) (finalState (indexBlockRead indexRead) emptyTrees))
        blankRead := by
      refine ⟨fun o ho _ => ?_, rfl⟩
      obtain rfl : o = ⟨200, 9, 0, 9, .clean, [0], [], 1⟩ := List.mem_singleton.mp ho
      rfl
    obtain ⟨-, img, raw, hraw, hverify, -⟩ := hblank hmiss rfl
    cases hraw
    cases hverify

/-- The first call is refused and leaves an empty cache in both trees. The second one returns it, with
the zeros that were refused. -/
theorem read_failed_then_cached : ¬ RunMeets (fun _ _ => False) [blankRead, blankRead] emptyTrees ∧
    ∃ s₁ s₂, indexBlockRead blankRead emptyTrees = .error .invalidObject s₁ ∧ s₁.ct.metadataCache = [0] ∧
      s₁.ct.objInfoList.map ObjectInfo.caches = [[0]] ∧ indexBlockRead blankRead s₁ = .ok 0 s₂ ∧
        s₂.ct.heap 0 = some ⟨7, .empty, false⟩ ∧ s₂.ib 0 = some blankBlock := by
  refine ⟨fun h => ?_, _, _, rfl, rfl, rfl, rfl, rfl, rfl⟩
  have htree : ([0] : List CachePtr) = [] := h.1.2.1
  cases htree

end IndexFs.Object
