import IndexFs.Object.ObjidTree
import Mathlib.Data.List.TakeWhile

/-!
# Objects, block numbers and the objid tree

`View` is what a container knows apart from its caches: the objects, the entries of
the objid tree, what each block is in use for. The functions of
`ofs_metadata_cache.c` leave it alone.

`Registry` is the invariant: there is one `object_info_t` for an object, the root
block of an open object is in a block allocated for its inode, and the objid tree has
the number of that block for an object that is closed or whose root block is clean.
-/

namespace IndexFs.Object

open IndexFs.Collate IndexFs.Space

/-! ## What the caches do not touch -/

/-- An object without its caches. -/
def ObjectInfo.core (o : ObjectInfo) : ObjectInfo := { o with caches := [] }

/-- A container without its caches. -/
structure View where
  objs : List ObjectInfo
  idTree : List (Bytes × Bytes)
  use : ℕ → Option BlockUse
  nextHandle : HandlePtr
  baseInodeNo : ℕ
  spaceInodeNo : ℕ
  objidInodeNo : ℕ
  dirty : Bool

def Container.view (ct : Container) : View :=
  { objs := ct.objInfoList.map ObjectInfo.core, idTree := ct.idTree, use := ct.use,
    nextHandle := ct.nextHandle, baseInodeNo := ct.baseInodeNo, spaceInodeNo := ct.spaceInodeNo,
    objidInodeNo := ct.objidInodeNo, dirty := ct.dirty }

section Caches

theorem getCache_keeps (p : CachePtr) : Keeps Container.view (getCache p) := by
  refine Keeps.get.bind fun ct => ?_
  cases ct.heap p with
  | some c => exact Keeps.pure c
  | none => exact Keeps.throw _

theorem putCache_keeps (p : CachePtr) (c : BlockCache) : Keeps Container.view (putCache p c) :=
  Keeps.modify fun _ => rfl

theorem osFree_keeps (p : CachePtr) : Keeps Container.view (osFree p) := Keeps.modify fun _ => rfl

theorem setCacheState_keeps (p : CachePtr) (state : Tree.CacheStatus) :
    Keeps Container.view (setCacheState p state) :=
  (getCache_keeps p).bind fun _ => (putCache_keeps _ _).bind fun _ =>
    Keeps.ite (Keeps.modify fun _ => rfl) (Keeps.pure _)

theorem setCacheFlush_keeps (p : CachePtr) : Keeps Container.view (setCacheFlush p) :=
  (getCache_keeps p).bind fun _ => putCache_keeps _ _

theorem avlAdd_keeps (l : List CachePtr) (p : CachePtr) : Keeps Container.view (avlAdd l p) := by
  refine (getCache_keeps p).bind fun c => Keeps.get.bind fun ct => (Keeps.fromExcept _).bind fun r => ?_
  cases r with
  | some _ => exact Keeps.throw _
  | none => exact Keeps.pure _

theorem avlRemove_keeps (l : List CachePtr) (p : CachePtr) : Keeps Container.view (avlRemove l p) :=
  (Keeps.pure _).ite (Keeps.throw _)

theorem getInfo_keeps (objid : ℕ) : Keeps Container.view (getInfo objid) := by
  refine Keeps.get.bind fun ct => ?_
  cases ct.objInfoList.find? (·.objid = objid) with
  | some o => exact Keeps.pure o
  | none => exact Keeps.throw _

/-- `obj_info->caches` is not seen. -/
theorem setCaches_keeps (objid : ℕ) (caches : List CachePtr) :
    Keeps Container.view (modifyInfo objid fun o => { o with caches }) := by
  refine Keeps.modify fun ct => ?_
  unfold Container.view
  rw [List.map_map]
  congr 1
  refine List.map_congr_left fun o _ => ?_
  dsimp only [Function.comp_apply]
  split_ifs <;> rfl

theorem setMetadataCache_keeps (metadataCache : List CachePtr) :
    Keeps Container.view (modify fun ct => { ct with metadataCache } : ObjectM Unit) :=
  Keeps.modify fun _ => rfl

theorem insertObjCache_keeps (objid : ℕ) (p : CachePtr) : Keeps Container.view (insertObjCache objid p) :=
  (getInfo_keeps objid).bind fun _ => (avlAdd_keeps _ _).bind fun _ => (setCaches_keeps _ _).bind fun _ =>
    Keeps.get.bind fun _ => (avlAdd_keeps _ _).bind fun _ => setMetadataCache_keeps _

theorem removeObjCache_keeps (objid : ℕ) (p : CachePtr) : Keeps Container.view (removeObjCache objid p) :=
  (getInfo_keeps objid).bind fun _ => (avlRemove_keeps _ _).bind fun _ => (setCaches_keeps _ _).bind fun _ =>
    Keeps.get.bind fun _ => (avlRemove_keeps _ _).bind fun _ => setMetadataCache_keeps _

theorem changeObjCacheVbn_keeps (objid : ℕ) (p : CachePtr) (newVbn : ℕ) :
    Keeps Container.view (changeObjCacheVbn objid p newVbn) :=
  (removeObjCache_keeps objid p).bind fun _ => (getCache_keeps p).bind fun _ =>
    (putCache_keeps _ _).bind fun _ => insertObjCache_keeps objid p

theorem allocObjCache_keeps (objid vbn : ℕ) : Keeps Container.view (allocObjCache objid vbn) :=
  Keeps.get.bind fun _ => Keeps.bind (Keeps.modify fun _ => rfl) fun _ => (putCache_keeps _ _).bind fun _ =>
    (insertObjCache_keeps _ _).bind fun _ => Keeps.pure _

theorem freeObjCache_keeps (objid : ℕ) (p : CachePtr) : Keeps Container.view (freeObjCache objid p) :=
  (removeObjCache_keeps objid p).bind fun _ => osFree_keeps p

theorem releaseObjCache_keeps (objid : ℕ) (p : CachePtr) : Keeps Container.view (releaseObjCache objid p) := by
  refine (getCache_keeps p).bind fun c => Keeps.ite ?_ (freeObjCache_keeps objid p)
  exact (setCacheFlush_keeps p).bind fun _ => (getInfo_keeps objid).bind fun _ =>
    (avlRemove_keeps _ _).bind fun _ => setCaches_keeps _ _

theorem releaseObjAllCache_keeps (objid : ℕ) : Keeps Container.view (releaseObjAllCache objid) :=
  (getInfo_keeps objid).bind fun _ => Keeps.forM (releaseObjCache_keeps objid) _

theorem freeContainerCache_keeps (p : CachePtr) : Keeps Container.view (freeContainerCache p) :=
  Keeps.get.bind fun _ => (avlRemove_keeps _ _).bind fun _ => (setMetadataCache_keeps _).bind fun _ =>
    osFree_keeps p

theorem flushContainerDirtyCache_keeps (p : CachePtr) :
    Keeps Container.view (flushContainerDirtyCache p) := by
  have hupdate : ∀ vbn, Keeps Container.view (updateBlock vbn) := fun vbn => Keeps.modify fun _ => rfl
  refine (getCache_keeps p).bind fun c => Keeps.ite (Keeps.pure _) ((hupdate _).bind fun _ => Keeps.ite ?_ ?_)
  · exact (setCacheState_keeps _ _).bind fun _ => freeContainerCache_keeps p
  · exact setCacheState_keeps _ _

theorem indexBlockRead2_keeps (objid vbn : ℕ) : Keeps Container.view (indexBlockRead2 objid vbn) := by
  refine (getInfo_keeps objid).bind fun o => Keeps.get.bind fun ct => (Keeps.fromExcept _).bind fun r => ?_
  cases r with
  | some p => exact Keeps.pure p
  | none =>
    refine Keeps.get.bind fun ct => Keeps.get.bind fun ct' => (Keeps.fromExcept _).bind fun r => ?_
    cases r with
    | some p =>
      exact (avlAdd_keeps _ _).bind fun _ => (setCaches_keeps _ _).bind fun _ => Keeps.pure _
    | none =>
      exact (allocObjCache_keeps _ _).bind fun _ => (setCacheState_keeps _ _).bind fun _ => Keeps.pure _

end Caches

/-! ## The invariant -/

/-- The objects of a container, its objid tree `l` and its blocks agree. -/
structure Registry (v : View) (l : List (ℕ × ℕ)) : Prop where
  tree : v.idTree = l.map encodeId
  ids : IdsOk l
  user : ∀ x ∈ l, reservedObjId ≤ x.1 ∧ x.1 < invalidObjid
  objids : v.objs.Pairwise fun a b => a.objid < b.objid
  known : ∀ o ∈ v.objs, o.objid ≤ objidObjId ∨ reservedObjId ≤ o.objid
  bound : ∀ o ∈ v.objs, o.objid < invalidObjid
  numbers : ∀ n u, v.use n = some u → n < 2 ^ 64
  root : ∀ o ∈ v.objs, v.use o.rootVbn = some (.inode o.objid)
  clean : ∀ o ∈ v.objs, reservedObjId ≤ o.objid → o.rootState ≠ .dirty →
    (o.objid, o.rootVbn) ∈ l ∧ o.inodeNo = o.rootVbn
  closed : ∀ x ∈ l, (∀ o ∈ v.objs, o.objid ≠ x.1) → v.use x.2 = some (.inode x.1)
  inode : ∀ n k, reservedObjId ≤ k → v.use n = some (.inode k) →
    (∃ o ∈ v.objs, o.objid = k ∧ o.rootVbn = n) ∨ (∀ o ∈ v.objs, o.objid ≠ k) ∧ (k, n) ∈ l

/-! ## Changes -/

/-- `f` on the object with the number `objid`. -/
def atObj (objid : ℕ) (f : ObjectInfo → ObjectInfo) (o : ObjectInfo) : ObjectInfo :=
  if o.objid = objid then f o else o

theorem invalidObjid_lt : invalidObjid < 2 ^ 64 := by decide

theorem atObj_objid {objid : ℕ} {f : ObjectInfo → ObjectInfo} (hf : ∀ o, (f o).objid = o.objid)
    (o : ObjectInfo) : (atObj objid f o).objid = o.objid := by
  unfold atObj
  split_ifs
  · exact hf o
  · rfl

/-- The object with the number `objid` changes. -/
def View.mapObj (v : View) (objid : ℕ) (f : ObjectInfo → ObjectInfo) : View :=
  { v with objs := v.objs.map (atObj objid f) }

/-- A block changes its use. -/
def View.setUse (v : View) (n : ℕ) (u : Option BlockUse) : View :=
  { v with use := Function.update v.use n u }

theorem View.mapObj_mapObj (v : View) (objid : ℕ) {f : ObjectInfo → ObjectInfo} (hf : ∀ o, (f o).objid = o.objid)
    (g : ObjectInfo → ObjectInfo) : (v.mapObj objid f).mapObj objid g = v.mapObj objid (g ∘ f) := by
  unfold View.mapObj
  simp only [List.map_map, View.mk.injEq, and_true]
  refine List.map_congr_left fun o _ => ?_
  unfold atObj
  by_cases h : o.objid = objid
  · simp [h, hf]
  · simp [h]

/-- An object is registered at its place. -/
def View.insert (v : View) (o : ObjectInfo) : View :=
  { v with objs := v.objs.takeWhile (·.objid < o.objid) ++ o :: v.objs.dropWhile (·.objid < o.objid) }

theorem mem_insert {v : View} {o x : ObjectInfo} : x ∈ (v.insert o).objs ↔ x = o ∨ x ∈ v.objs := by
  unfold View.insert
  rw [List.mem_append, List.mem_cons]
  conv_rhs => rw [← List.takeWhile_append_dropWhile (p := fun x : ObjectInfo => decide (x.objid < o.objid))
    (l := v.objs), List.mem_append]
  tauto

/-- The new object changes. -/
theorem View.mapObj_insert {v : View} {o : ObjectInfo} (hnew : ∀ x ∈ v.objs, x.objid ≠ o.objid)
    {f : ObjectInfo → ObjectInfo} (hf : (f o).objid = o.objid) :
    (v.insert o).mapObj o.objid f = v.insert (f o) := by
  have hsame : ∀ l : List ObjectInfo, (∀ x ∈ l, x ∈ v.objs) → l.map (atObj o.objid f) = l := by
    intro l hl
    calc l.map (atObj o.objid f) = l.map id := List.map_congr_left fun x hx => if_neg (hnew x (hl x hx))
      _ = l := List.map_id l
  have hat : atObj o.objid f o = f o := if_pos rfl
  unfold View.insert View.mapObj
  rw [hf, List.map_append, List.map_cons, hsame _ fun x hx => (List.takeWhile_sublist _).subset hx,
    hsame _ fun x hx => (List.dropWhile_sublist _).subset hx, hat]

section Invariant

variable {v v' : View} {l : List (ℕ × ℕ)} {n : ℕ}

/-- One object for a number. -/
theorem Registry.unique (hr : Registry v l) {o o' : ObjectInfo} (ho : o ∈ v.objs) (ho' : o' ∈ v.objs)
    (h : o.objid = o'.objid) : o = o' := by
  have hnodup : (v.objs.map ObjectInfo.objid).Nodup := List.pairwise_map.mpr (hr.objids.imp fun h => h.ne)
  exact List.inj_on_of_nodup_map hnodup ho ho' h

theorem Registry.congr (hr : Registry v l) (hobjs : v'.objs = v.objs) (htree : v'.idTree = v.idTree)
    (huse : v'.use = v.use) : Registry v' l := by
  cases v'
  subst hobjs htree huse
  exact ⟨hr.tree, hr.ids, hr.user, hr.objids, hr.known, hr.bound, hr.numbers, hr.root, hr.clean, hr.closed,
    hr.inode⟩

/-- Objects change in other fields than their number and that of the root block. -/
theorem Registry.mapObjs (hr : Registry v l) {f : ObjectInfo → ObjectInfo} (hid : ∀ o, (f o).objid = o.objid)
    (hroot : ∀ o ∈ v.objs, (f o).rootVbn = o.rootVbn)
    (hclean : ∀ o ∈ v.objs, reservedObjId ≤ o.objid → (f o).rootState ≠ .dirty →
      (o.objid, o.rootVbn) ∈ l ∧ (f o).inodeNo = o.rootVbn) :
    Registry { v with objs := v.objs.map f } l where
  tree := hr.tree
  ids := hr.ids
  user := hr.user
  objids := List.pairwise_map.mpr (by simpa only [hid] using hr.objids)
  known := List.forall_mem_map.mpr fun o ho => by rw [hid]; exact hr.known o ho
  bound := List.forall_mem_map.mpr fun o ho => by rw [hid]; exact hr.bound o ho
  numbers := hr.numbers
  root := List.forall_mem_map.mpr fun o ho => by rw [hid, hroot o ho]; exact hr.root o ho
  clean := List.forall_mem_map.mpr fun o ho => by rw [hid, hroot o ho]; exact hclean o ho
  closed x hx h := hr.closed x hx fun o ho => by
    have := h (f o) (List.mem_map_of_mem ho)
    rwa [hid] at this
  inode n k hk hn := by
    rcases hr.inode n k hk hn with ⟨o, ho, rfl, rfl⟩ | ⟨hno, hkn⟩
    · exact .inl ⟨f o, List.mem_map_of_mem ho, hid o, hroot o ho⟩
    · exact .inr ⟨List.forall_mem_map.mpr fun o ho => by rw [hid]; exact hno o ho, hkn⟩

/-- A block comes into use or out of use that is not an inode. -/
theorem Registry.setUse (hr : Registry v l) {u : Option BlockUse} (hold : ∀ k, v.use n ≠ some (.inode k))
    (hnew : ∀ k, u ≠ some (.inode k)) (hn : u ≠ none → n < 2 ^ 64) :
    Registry (v.setUse n u) l := by
  have hsame : ∀ w k, Function.update v.use n u w = some (.inode k) ↔ v.use w = some (.inode k) := by
    intro w k
    by_cases h : w = n
    · subst h
      rw [Function.update_self]
      exact ⟨fun h => absurd h (hnew k), fun h => absurd h (hold k)⟩
    · rw [Function.update_of_ne h]
  refine ⟨hr.tree, hr.ids, hr.user, hr.objids, hr.known, hr.bound, fun w u' hw => ?_,
    fun o ho => (hsame _ _).mpr (hr.root o ho), hr.clean, fun x hx h => (hsame _ _).mpr (hr.closed x hx h),
    fun w k hk hw => hr.inode w k hk ((hsame _ _).mp hw)⟩
  change Function.update v.use n u w = some u' at hw
  by_cases h : w = n
  · subst h
    rw [Function.update_self] at hw
    exact hn (by simp [hw])
  · rw [Function.update_of_ne h] at hw
    exact hr.numbers w u' hw

/-- Which blocks hold inodes when the inode of an object moves from `old` to `n`. -/
theorem moved_use {use : ℕ → Option BlockUse} {objid old w k : ℕ} (hold : use old = some (.inode objid))
    (hfree : use n = none) :
    Function.update (Function.update use n (some (.inode objid))) old none w = some (.inode k) ↔
      w ≠ old ∧ (w = n ∧ k = objid ∨ use w = some (.inode k)) := by
  by_cases h1 : w = old
  · subst h1
    simp
  · rw [Function.update_of_ne h1]
    by_cases h2 : w = n
    · subst h2
      rw [Function.update_self, hfree]
      simp [h1, eq_comm]
    · rw [Function.update_of_ne h2]
      simp [h1, h2]

/-- The root block of an object moves to the block `n`. -/
theorem Registry.moveRoot (hr : Registry v l) {o : ObjectInfo} (ho : o ∈ v.objs) (hfree : v.use n = none)
    (hn : n < 2 ^ 64) :
    Registry (((v.setUse n (some (.inode o.objid))).mapObj o.objid fun o =>
      { o with rootVbn := n, rootState := .dirty }).setUse o.rootVbn none) l := by
  have hroot := hr.root o ho
  have hne : n ≠ o.rootVbn := fun h => by simp [← h, hfree] at hroot
  have hother : ∀ w k, k ≠ o.objid → v.use w = some (.inode k) → w ≠ o.rootVbn := fun w k hk hw h => by
    rw [h, hroot] at hw
    cases hw
    exact hk rfl
  have hid : ∀ x, (atObj o.objid (fun o => { o with rootVbn := n, rootState := .dirty }) x).objid = x.objid :=
    atObj_objid fun _ => rfl
  have hat : ∀ x, x.objid ≠ o.objid →
      atObj o.objid (fun o => { o with rootVbn := n, rootState := .dirty }) x = x := fun x h => if_neg h
  have hat' : atObj o.objid (fun o => { o with rootVbn := n, rootState := .dirty }) o =
      { o with rootVbn := n, rootState := .dirty } := if_pos rfl
  unfold View.setUse View.mapObj
  dsimp only
  refine ⟨hr.tree, hr.ids, hr.user, List.pairwise_map.mpr (by simpa only [hid] using hr.objids),
    List.forall_mem_map.mpr fun x hx => by rw [hid]; exact hr.known x hx,
    List.forall_mem_map.mpr fun x hx => by rw [hid]; exact hr.bound x hx, fun w u hw => ?_,
    List.forall_mem_map.mpr fun x hx => ?_, List.forall_mem_map.mpr fun x hx => ?_, fun x hx h => ?_,
    fun w k hk hw => ?_⟩
  · dsimp only at hw
    by_cases h1 : w = o.rootVbn
    · exact h1 ▸ hr.numbers _ _ hroot
    · rw [Function.update_of_ne h1] at hw
      by_cases h2 : w = n
      · exact h2 ▸ hn
      · rw [Function.update_of_ne h2] at hw
        exact hr.numbers w u hw
  · refine (moved_use hroot hfree).mpr ?_
    by_cases hx' : x.objid = o.objid
    · obtain rfl := hr.unique hx ho hx'
      rw [hat']
      exact ⟨hne, .inl ⟨rfl, rfl⟩⟩
    · rw [hat x hx']
      exact ⟨hother _ _ hx' (hr.root x hx), .inr (hr.root x hx)⟩
  · intro hk hd
    by_cases hx' : x.objid = o.objid
    · obtain rfl := hr.unique hx ho hx'
      rw [hat'] at hd
      exact absurd rfl hd
    · rw [hat x hx'] at hk hd ⊢
      exact hr.clean x hx hk hd
  · have hno : ∀ y ∈ v.objs, y.objid ≠ x.1 := fun y hy => by
      have := h _ (List.mem_map_of_mem hy)
      rwa [hid] at this
    have hx' := hr.closed x hx hno
    exact (moved_use hroot hfree).mpr ⟨hother _ _ (hno o ho).symm hx', .inr hx'⟩
  · obtain ⟨hw1, ⟨rfl, rfl⟩ | hw2⟩ := (moved_use hroot hfree).mp hw
    · exact .inl ⟨_, List.mem_map_of_mem ho, hid o, by rw [hat']⟩
    · rcases hr.inode w k hk hw2 with ⟨x, hx, rfl, rfl⟩ | ⟨hno, hkn⟩
      · have hx' : x.objid ≠ o.objid := fun h => hw1 (by rw [hr.unique hx ho h])
        exact .inl ⟨x, List.mem_map.mpr ⟨x, hx, hat x hx'⟩, rfl, rfl⟩
      · exact .inr ⟨List.forall_mem_map.mpr fun x hx => by rw [hid]; exact hno x hx, hkn⟩

/-- The objid tree gets the number of the root block of an open object. -/
theorem Registry.setId (hr : Registry v l) {o : ObjectInfo} (ho : o ∈ v.objs) (hk : reservedObjId ≤ o.objid) :
    Registry { v with idTree := (Object.setId o.objid o.rootVbn l).map encodeId }
      (Object.setId o.objid o.rootVbn l) where
  tree := rfl
  ids := hr.ids.set ((hr.bound o ho).trans invalidObjid_lt) (hr.numbers _ _ (hr.root o ho))
  user x hx := by
    rcases mem_setId.mp hx with rfl | ⟨hx, -⟩
    · exact ⟨hk, hr.bound o ho⟩
    · exact hr.user x hx
  objids := hr.objids
  known := hr.known
  bound := hr.bound
  numbers := hr.numbers
  root := hr.root
  clean o' ho' hk' hd := by
    obtain ⟨hmem, hno⟩ := hr.clean o' ho' hk' hd
    refine ⟨mem_setId.mpr ?_, hno⟩
    by_cases h : o'.objid = o.objid
    · exact .inl (by rw [hr.unique ho' ho h])
    · exact .inr ⟨hmem, h⟩
  closed x hx h := by
    rcases mem_setId.mp hx with rfl | ⟨hx, -⟩
    · exact absurd rfl (h o ho)
    · exact hr.closed x hx h
  inode n k hk' hn := by
    rcases hr.inode n k hk' hn with h | ⟨hno, hkn⟩
    · exact .inl h
    · exact .inr ⟨hno, mem_setId.mpr (.inr ⟨hkn, fun h => hno o ho h.symm⟩)⟩

/-- What is left of an ordered list from a number on. -/
theorem le_of_mem_dropWhile {objs : List ObjectInfo} {k : ℕ} (h : objs.Pairwise fun a b => a.objid < b.objid)
    {x : ObjectInfo} (hx : x ∈ objs.dropWhile (·.objid < k)) : k ≤ x.objid := by
  induction objs with
  | nil => simp at hx
  | cons a objs ih =>
    obtain ⟨ha, h⟩ := List.pairwise_cons.mp h
    by_cases hlt : a.objid < k
    · rw [List.dropWhile_cons_of_pos (by simpa using hlt)] at hx
      exact ih h hx
    · rw [List.dropWhile_cons_of_neg (by simpa using hlt)] at hx
      rcases List.mem_cons.mp hx with rfl | hx
      · exact not_lt.mp hlt
      · exact (not_lt.mp hlt).trans (ha x hx).le

/-- An object is registered. -/
theorem Registry.insert (hr : Registry v l) (o : ObjectInfo) (use : ℕ → Option BlockUse)
    (hnew : ∀ x ∈ v.objs, x.objid ≠ o.objid) (hknown : o.objid ≤ objidObjId ∨ reservedObjId ≤ o.objid)
    (hbound : o.objid < invalidObjid) (hnumbers : ∀ n u, use n = some u → n < 2 ^ 64)
    (hother : ∀ n k, k ≠ o.objid → (use n = some (.inode k) ↔ v.use n = some (.inode k)))
    (hroot : use o.rootVbn = some (.inode o.objid))
    (honly : reservedObjId ≤ o.objid → ∀ n, use n = some (.inode o.objid) → n = o.rootVbn)
    (hclean : reservedObjId ≤ o.objid → o.rootState ≠ .dirty → (o.objid, o.rootVbn) ∈ l ∧ o.inodeNo = o.rootVbn) :
    Registry ({ v with use }.insert o) l := by
  have hmem : ∀ x, x ∈ ({ v with use }.insert o).objs ↔ x = o ∨ x ∈ v.objs := fun x => mem_insert
  refine ⟨hr.tree, hr.ids, hr.user, ?_, fun x hx => ?_, fun x hx => ?_, hnumbers, fun x hx => ?_, fun x hx => ?_,
    fun x hx h => ?_, fun n k hk hn => ?_⟩
  · have hlt : ∀ x ∈ v.objs.takeWhile (·.objid < o.objid), x.objid < o.objid := fun x hx => by
      simpa using List.mem_takeWhile_imp hx
    have hgt : ∀ y ∈ v.objs.dropWhile (·.objid < o.objid), o.objid < y.objid := fun y hy =>
      lt_of_le_of_ne (le_of_mem_dropWhile hr.objids hy) (hnew y ((List.dropWhile_sublist _).subset hy)).symm
    refine List.pairwise_append.mpr ⟨hr.objids.sublist (List.takeWhile_sublist _),
      List.pairwise_cons.mpr ⟨hgt, hr.objids.sublist (List.dropWhile_sublist _)⟩, fun x hx y hy => ?_⟩
    rcases List.mem_cons.mp hy with rfl | hy
    · exact hlt x hx
    · exact (hlt x hx).trans (hgt y hy)
  · rcases (hmem x).mp hx with rfl | hx
    · exact hknown
    · exact hr.known x hx
  · rcases (hmem x).mp hx with rfl | hx
    · exact hbound
    · exact hr.bound x hx
  · rcases (hmem x).mp hx with rfl | hx
    · exact hroot
    · exact (hother _ _ (hnew x hx)).mpr (hr.root x hx)
  · rcases (hmem x).mp hx with rfl | hx
    · exact hclean
    · exact hr.clean x hx
  · have hno : ∀ y ∈ v.objs, y.objid ≠ x.1 := fun y hy => h y ((hmem y).mpr (.inr hy))
    exact (hother _ _ (h o ((hmem o).mpr (.inl rfl))).symm).mpr (hr.closed x hx hno)
  · by_cases hk' : k = o.objid
    · subst hk'
      exact .inl ⟨o, (hmem o).mpr (.inl rfl), rfl, (honly hk n hn).symm⟩
    · rcases hr.inode n k hk ((hother n k hk').mp hn) with ⟨x, hx, h1, h2⟩ | ⟨hno, hkn⟩
      · exact .inl ⟨x, (hmem x).mpr (.inr hx), h1, h2⟩
      · refine .inr ⟨fun x hx => ?_, hkn⟩
        rcases (hmem x).mp hx with rfl | hx
        · exact fun h => hk' h.symm
        · exact hno x hx

/-- An object is taken off the list. -/
theorem Registry.remove (hr : Registry v l) {objid : ℕ}
    (hid : ∀ o ∈ v.objs, o.objid = objid → reservedObjId ≤ objid → (objid, o.rootVbn) ∈ l) :
    Registry { v with objs := v.objs.filter (·.objid ≠ objid) } l where
  tree := hr.tree
  ids := hr.ids
  user := hr.user
  objids := hr.objids.filter _
  known o ho := hr.known o (List.mem_filter.mp ho).1
  bound o ho := hr.bound o (List.mem_filter.mp ho).1
  numbers := hr.numbers
  root o ho := hr.root o (List.mem_filter.mp ho).1
  clean o ho := hr.clean o (List.mem_filter.mp ho).1
  closed x hx h := by
    by_cases hopen : ∃ o ∈ v.objs, o.objid = x.1
    · obtain ⟨o, ho, hox⟩ := hopen
      have hgone : o.objid = objid := by
        by_contra hne
        exact h o (List.mem_filter.mpr ⟨ho, by simpa using hne⟩) hox
      have hmem := hid o ho hgone (by rw [← hgone, hox]; exact (hr.user x hx).1)
      have hv : o.rootVbn = x.2 := hr.ids.unique (hgone ▸ hmem) (hox ▸ hx)
      rw [← hv, ← hox]
      exact hr.root o ho
    · exact hr.closed x hx fun o ho hox => hopen ⟨o, ho, hox⟩
  inode n k hk hn := by
    rcases hr.inode n k hk hn with ⟨o, ho, rfl, rfl⟩ | ⟨hno, hkn⟩
    · by_cases hgone : o.objid = objid
      · refine .inr ⟨fun x hx => ?_, ?_⟩
        · rw [hgone]
          simpa using (List.mem_filter.mp hx).2
        · rw [hgone]
          exact hid o ho hgone (hgone ▸ hk)
      · exact .inl ⟨o, List.mem_filter.mpr ⟨ho, by simpa using hgone⟩, rfl, rfl⟩
    · exact .inr ⟨fun x hx => hno x (List.mem_filter.mp hx).1, hkn⟩

end Invariant

end IndexFs.Object
