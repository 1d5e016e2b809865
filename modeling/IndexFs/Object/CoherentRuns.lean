import IndexFs.Object.Agreement
import IndexFs.Object.CoherentOps

/-!
# The trees of caches over a run

Results:

* `validateObjInode_coherent`, `ofsCreateObject_coherent`, `ofsOpenObject_coherent` and
  `ofsCloseObject_coherent`: these calls keep `Coherent` from every state in which the
  registry is in order.
* `commitContainerModification_coherent`: a commit does so if no open object has a
  flagged cache.
* `caches_coherent`: the trees of caches over a run.
* `reopened_cache_freed`: a run in which a commit frees a cache that an object, closed
  and opened again, has in its tree.

**The flag.** `release_obj_cache` flags a dirty cache for the next flush, which frees it.
`index_block_read2` takes such a cache into the tree of an object again and leaves the
flag as it is.
-/

namespace IndexFs.Object

open IndexFs.Collate IndexFs.Space

variable {ct ct' : Container} {closing skip : ℕ → Prop} {l : List (ℕ × ℕ)} {objid n : ℕ} {p : CachePtr}
  {c : BlockCache}

/-! ## The objid tree -/

theorem idSearch_keeps {β : Type} (view : Container → β) (key : Bytes) : Keeps view (idSearch key) := by
  refine Keeps.get.bind fun ct => (Keeps.fromExcept _).bind fun r => ?_
  rcases r with ⟨_, _ | ⟨kv, l⟩⟩
  · exact Keeps.throw _
  · exact (Keeps.fromExcept _).bind fun d => (Keeps.pure _).ite (Keeps.throw _)

theorem idInsert_keeps {β : Type} {view : Container → β} (hview : ∀ ct idTree, view { ct with idTree } = view ct)
    (key value : Bytes) : Keeps view (idInsert key value) := by
  refine Keeps.bind (idSearch_keeps view key).codeOf fun r => ?_
  cases r with
  | ok value => exact Keeps.throw _
  | error e =>
    exact (Keeps.throw _).ite (Keeps.get.bind fun ct => (Keeps.fromExcept _).bind fun r =>
      Keeps.modify fun _ => hview _ _)

theorem idUpdate_keeps {β : Type} {view : Container → β} (hview : ∀ ct idTree, view { ct with idTree } = view ct)
    (key value : Bytes) : Keeps view (idUpdate key value) := by
  have hremove : Keeps view (idRemove key) :=
    (idSearch_keeps view key).bind fun _ => Keeps.get.bind fun ct => (Keeps.fromExcept _).bind fun r =>
      Keeps.modify fun _ => hview _ _
  exact Keeps.bind hremove.codeOf fun _ => idInsert_keeps hview key value

/-- What leaves the trees of caches alone flags no cache. -/
theorem Keeps.quiet {α : Type} {x : ObjectM α} {P : ℕ → Prop} (hx : Keeps Container.trees x) :
    Relates (Quiet P) x := by
  refine hx.mono fun ct ct' h => ?_
  obtain ⟨hheap, -, hobjs, -⟩ : ct'.heap = ct.heap ∧ ct'.metadataCache = ct.metadataCache ∧
      ct'.objInfoList = ct.objInfoList ∧ ct'.use = ct.use := by
    simpa [Container.trees] using h
  exact .same hheap hobjs

/-- What leaves the trees of caches alone keeps them coherent. -/
theorem Coherent.keeps {α : Type} {x : ObjectM α} (h : Coherent closing skip ct) (hx : Keeps Container.trees x) :
    Ends x ct (fun _ ct' => Coherent closing skip ct') fun _ _ => True :=
  (hx ct).mono (fun _ _ h' => h.congr h') fun _ _ _ => trivial

/-! ## Validation -/

theorem runSystemOps_coherent (h : Coherent closing skip ct) (hs : ∀ k < reservedObjId, ¬ skip k) (ops : SystemOps) :
    Ends (runSystemOps ops) ct (fun _ ct' => Coherent closing skip ct') fun _ _ => True :=
  Ends.forM (I := fun _ (ct' : Container) => Coherent closing skip ct') h fun x _ _ h' =>
    runOp_coherent h' (hs _ x.1.id_lt) x.2

theorem readIdBlocks_coherent (h : Coherent closing skip ct) (hs : ∀ k < reservedObjId, ¬ skip k) (vbns : List ℕ) :
    Ends (readIdBlocks vbns) ct (fun _ ct' => Coherent closing skip ct') fun _ _ => True :=
  Ends.forM (I := fun _ (ct' : Container) => Coherent closing skip ct') h fun vbn _ _ h' =>
    runOp_coherent h' (hs _ (by decide)) (.read vbn)

/-- A change of an object elsewhere than in its caches. -/
theorem modifyInfo_coherent (h : Coherent closing skip ct) (objid : ℕ) {f : ObjectInfo → ObjectInfo}
    (hf : ∀ o, (f o).objid = o.objid ∧ (f o).caches = o.caches ∧ (f o).inodeCache = o.inodeCache ∧
      (f o).rootVbn = o.rootVbn) :
    Ends (modifyInfo objid f) ct (fun _ ct' => Coherent closing skip ct') fun _ _ => True :=
  h.mapCore objid (fun o => (hf o).1) (fun o => (hf o).2.1) fun _ o => (hf o).2.2

theorem validateObjInode_coherent (h : Coherent closing skip ct) (hs : ∀ k < reservedObjId, ¬ skip k) (objid : ℕ)
    (ops : SystemOps) :
    Ends (validateObjInode objid ops) ct (fun _ ct' => Coherent closing skip ct') fun _ _ => True := by
  unfold validateObjInode
  refine (getInfo_spec objid ct).seq fun o ct₁ hpost => ?_
  obtain ⟨rfl, -, -⟩ := hpost
  split_ifs
  · exact h
  all_goals
    refine (setCacheState_coherent h _ _).seq fun _ ct₂ h₂ => ?_
    refine (modifyInfo_coherent h₂ objid (f := fun x => { x with inodeNo := o.rootVbn })
      fun _ => ⟨rfl, rfl, rfl, rfl⟩).seq fun _ ct₃ h₃ => ?_
  -- the numbers of the system objects are in the super block
  · exact h₃.congr rfl
  · exact h₃.congr rfl
  · exact h₃.congr rfl
  · refine (runSystemOps_coherent h₃ hs ops).seq fun _ ct₄ h₄ => ?_
    exact (h₄.keeps (Relates.codeOf (idUpdate_keeps (fun _ _ => rfl) _ _))).seq fun _ ct₅ h₅ => h₅

/-- Validation flags no cache and changes the caches of the system objects alone. -/
theorem validateObjInode_quiet (objid : ℕ) (ops : SystemOps) :
    Relates (Quiet (· < reservedObjId)) (validateObjInode objid ops) := by
  refine (getInfo_quiet objid).bind fun o => (Relates.pure _).ite ?_
  refine (setCacheState_quiet _ _).bind fun _ => (modifyInfo_quiet (.inr ?_)).bind fun _ => ?_
  · exact fun _ => rfl
  refine (Relates.modify fun _ => .same rfl rfl).ite ((Relates.modify fun _ => .same rfl rfl).ite
    ((Relates.modify fun _ => .same rfl rfl).ite ?_))
  exact (runSystemOps_quiet SystemObject.id_lt ops).bind fun _ =>
    (Relates.codeOf (Keeps.quiet (idUpdate_keeps (fun _ _ => rfl) _ _))).bind fun _ => Relates.pure _

theorem validateAllObjects_coherent (h : Coherent closing skip ct) (hs : ∀ k < reservedObjId, ¬ skip k)
    (updates : ℕ → SystemOps) :
    Ends (validateAllObjects updates) ct (fun _ ct' => Coherent closing skip ct') fun _ _ => True := by
  have hloop : ∀ {ct : Container} (l : List ObjectInfo), Coherent closing skip ct →
      Ends (l.forM fun o => validateObjInode o.objid (updates o.objid)) ct
        (fun _ ct' => Coherent closing skip ct') fun _ _ => True := fun l h =>
    Ends.forM (I := fun _ (ct' : Container) => Coherent closing skip ct') h fun o _ _ h' =>
      validateObjInode_coherent h' hs o.objid _
  unfold validateAllObjects
  rw [ends_bind, ends_get]
  exact (hloop _ h).seq fun _ _ h' => hloop _ h'

theorem validateAllObjects_quiet (updates : ℕ → SystemOps) :
    Relates (Quiet (· < reservedObjId)) (validateAllObjects updates) :=
  Relates.get.bind fun _ => (Relates.forM (fun _ => validateObjInode_quiet _ _) _).bind fun _ =>
    Relates.forM (fun _ => validateObjInode_quiet _ _) _

/-! ## Commit -/

/-- No open object has a flagged cache in its tree. -/
def Unflagged (ct : Container) : Prop := ∀ o ∈ ct.objInfoList, ∀ p ∈ o.caches, ¬ Flagged ct p

instance (ct : Container) (p : CachePtr) : Decidable (Flagged ct p) :=
  inferInstanceAs (Decidable (∃ c ∈ ct.heap p, c.state = .dirty ∧ c.flush = true))

instance (ct : Container) : Decidable (Unflagged ct) :=
  inferInstanceAs (Decidable (∀ o ∈ ct.objInfoList, ∀ p ∈ o.caches, ¬ Flagged ct p))

/-- A flagged cache of a system object would be one of an object that is closed. -/
theorem Coherent.unflagged (h : Coherent (fun _ => False) skip ct') (hct : Unflagged ct)
    (hquiet : Quiet (· < reservedObjId) ct ct') : Unflagged ct' := by
  intro o ho p hp hflag
  by_cases hk : o.objid < reservedObjId
  · obtain ⟨c, hc, hd, hf⟩ := hflag
    rcases h.mayFlag ho hp hc hd hf with hres | hclosing | hclosed
    · exact absurd hk (not_lt.mpr hres)
    · exact hclosing
    · exact hclosed o ho rfl
  · obtain ⟨o₀, ho₀, -, hcaches⟩ := hquiet.caches o ho hk
    exact hct o₀ ho₀ p (hcaches ▸ hp) (hquiet.flags p hflag)

theorem flushContainerDirtyCache_quiet (p : CachePtr) :
    Relates (Quiet fun _ => False) (flushContainerDirtyCache p) := by
  have hfree : Relates (Quiet fun _ => False) (freeContainerCache p) :=
    Relates.get.bind fun _ => (avlRemove_quiet _ _).bind fun _ =>
      (setMetadataCache_quiet _).bind fun _ => osFree_quiet p
  have hupdate : ∀ vbn, Relates (Quiet fun _ => False) (updateBlock vbn) := fun _ =>
    Relates.modify fun _ => .same rfl rfl
  refine (getCache_quiet p).bind fun c => (Relates.pure _).ite ((hupdate _).bind fun _ => Relates.ite ?_ ?_)
  · exact (setCacheState_quiet p _).bind fun _ => hfree
  · exact setCacheState_quiet p _

/-- The flush frees a cache that no open object has. -/
theorem flushContainerDirtyCache_coherent (h : Coherent closing skip ct) (hct : Unflagged ct) (p : CachePtr) :
    Ends (flushContainerDirtyCache p) ct (fun _ ct' => Coherent closing skip ct') fun _ _ => True := by
  unfold flushContainerDirtyCache
  refine (getCache_spec p ct).seq fun c ct₁ hpost => ?_
  obtain ⟨rfl, hc⟩ := hpost
  have hupdate : Coherent closing skip { ct₁ with onDisk := Function.update ct₁.onDisk c.vbn true } := h.congr rfl
  split_ifs with hd hf
  · exact h
  all_goals
    unfold updateBlock
    rw [ends_bind, ends_modify]
  · have hnone : ∀ o ∈ ct₁.objInfoList, p ∉ o.caches := fun o ho hp =>
      hct o ho p hp ⟨c, hc, not_not.mp hd, hf⟩
    refine (setCacheState_spec p .clean _).seq fun _ ct₂ hpost => ?_
    obtain ⟨c', hc', rfl⟩ := hpost
    unfold freeContainerCache osFree
    rw [ends_bind, ends_get]
    refine (avlRemove_spec _ p _).seq fun l ct₃ hpost => ?_
    obtain ⟨rfl, -, rfl⟩ := hpost
    rw [ends_bind, ends_modify, ends_modify]
    exact ((hupdate.setState hc' .clean).dropMetadata hnone).setOutside h.nodup.not_mem_erase none
  · exact setCacheState_coherent hupdate p .clean

theorem flushContainerCache_coherent (h : Coherent closing skip ct) (hct : Unflagged ct) :
    Ends flushContainerCache ct (fun _ ct' => Coherent closing skip ct') fun _ _ => True := by
  unfold flushContainerCache
  rw [ends_bind, ends_get]
  refine (Ends.forM (I := fun _ (ct' : Container) => Coherent closing skip ct' ∧ Unflagged ct') ⟨h, hct⟩
    fun p _ ct₁ h₁ => ?_).seq fun _ ct₁ h₁ => h₁.1.congr rfl
  refine ((flushContainerDirtyCache_coherent h₁.1 h₁.2 p).and (flushContainerDirtyCache_quiet p ct₁)).mono
    (fun _ ct₂ h₂ => ⟨h₂.1, fun o ho q hq hflag => ?_⟩) fun _ _ _ => trivial
  obtain ⟨o₁, ho₁, -, hcaches⟩ := h₂.2.caches o ho not_false
  exact h₁.2 o₁ ho₁ q (hcaches ▸ hq) (h₂.2.flags q hflag)

theorem Coherent.cleanRoots (h : Coherent closing skip ct) :
    Coherent closing skip { ct with objInfoList := ct.objInfoList.map cleanObjRootCache } := by
  have hfields : ∀ o, (cleanObjRootCache o).objid = o.objid ∧ (cleanObjRootCache o).caches = o.caches ∧
      (cleanObjRootCache o).inodeCache = o.inodeCache ∧ (cleanObjRootCache o).rootVbn = o.rootVbn := by
    intro o
    unfold cleanObjRootCache
    split_ifs <;> exact ⟨rfl, rfl, rfl, rfl⟩
  refine ⟨h.nodup, h.live, h.distinct, fun p hp c hc => ?_, ?_, ?_, ?_, ?_, ?_⟩
  · obtain ⟨k, hk, hmay⟩ := h.used p hp c hc
    refine ⟨k, hk, fun hd hf => (hmay hd hf).imp_right (Or.imp_right fun hall => ?_)⟩
    exact List.forall_mem_map.mpr fun o ho => (hfields o).1 ▸ hall o ho
  · rw [List.map_map]
    exact (List.map_congr_left fun o _ => (hfields o).1).symm ▸ h.objids
  all_goals
    refine List.forall_mem_map.mpr fun o ho => ?_
    obtain ⟨hid, hcaches, hcache, hroot⟩ := hfields o
  · exact hcaches ▸ h.members o ho
  · exact hcaches ▸ h.registered o ho
  · rw [hcaches, hid]
    exact h.owner o ho
  · unfold InodeCached
    rw [hid, hcaches, hcache, hroot]
    exact h.inode o ho

/-- A commit frees caches of closed objects alone. -/
theorem commitContainerModification_coherent (h : Coherent (fun _ => False) (fun _ => False) ct) (hct : Unflagged ct)
    (updates : ℕ → SystemOps) :
    Ends (commitContainerModification updates) ct (fun _ ct' => Coherent (fun _ => False) (fun _ => False) ct')
      fun _ _ => True := by
  unfold commitContainerModification
  refine Ends.seq' ((validateAllObjects_coherent h (fun _ _ => id) updates).and (validateAllObjects_quiet updates ct))
    (fun _ ct₁ h₁ => ?_) fun _ _ _ => trivial
  refine (flushContainerCache_coherent h₁.1 (h₁.1.unflagged hct h₁.2)).seq fun _ ct₂ h₂ => ?_
  exact h₂.cleanRoots

/-! ## Registering an object -/

/-- The cache of a new object's inode. -/
theorem Coherent.setInode (h : Coherent closing (fun k => skip k ∨ k = objid) ct) (hp : CachedAt ct objid n p)
    (huse : ct.use n = some (.inode objid)) :
    Coherent closing skip (ct.mapInfo objid fun o => { o with inodeCache := p, inodeNo := n, rootVbn := n }) := by
  have h₁ : Coherent closing (fun k => skip k ∨ k = objid)
      (ct.mapInfo objid fun o => { o with inodeCache := p, inodeNo := n, rootVbn := n }) :=
    h.mapCore objid (fun _ => rfl) (fun _ => rfl) fun hs => absurd (.inr rfl) hs
  refine h₁.settle (List.forall_mem_map.mpr fun o ho hid => ?_)
  unfold atObj at hid ⊢
  split_ifs at hid ⊢ with ho'
  · refine ⟨hp.1 o ho ho', hp.2, ?_⟩
    rw [hid]
    exact huse
  · exact absurd hid ho'

theorem getObjectInfo_coherent (h : Coherent closing skip ct)
    (hflag : reservedObjId ≤ objid ∨ ∀ p, ¬ Flagged ct p) :
    Ends (getObjectInfo objid) ct
      (fun _ ct' => Coherent closing (fun k => skip k ∨ k = objid) ct' ∧ ct'.use = ct.use) fun _ _ => True := by
  unfold getObjectInfo
  rw [ends_bind, ends_get]
  dsimp only
  split_ifs with hany
  · trivial
  · rw [ends_modify]
    simp only [List.any_eq_true, decide_eq_true_eq, not_exists, not_and] at hany
    have hperm : (ct.objInfoList.takeWhile (·.objid < objid) ++
        initObjectInfo objid :: ct.objInfoList.dropWhile (·.objid < objid)).Perm
          (initObjectInfo objid :: ct.objInfoList) := by
      refine List.perm_middle.trans ?_
      rw [List.takeWhile_append_dropWhile]
    exact ⟨h.register (o := initObjectInfo objid) hperm hany rfl hflag, rfl⟩

theorem getObjectHandle_coherent (h : Coherent closing skip ct) (objid : ℕ) :
    Ends (getObjectHandle objid) ct (fun _ ct' => Coherent closing skip ct') fun _ _ => True := by
  unfold getObjectHandle
  rw [ends_bind, ends_get, ends_bind, ends_modify]
  have h₁ : Coherent closing skip { ct with nextHandle := ct.nextHandle + 1 } := h.congr rfl
  refine (modifyInfo_coherent h₁ objid (f := fun o =>
    { o with objHndList := o.objHndList ++ [ct.nextHandle], refCnt := uint32 (o.refCnt + 1) })
    fun _ => ⟨rfl, rfl, rfl, rfl⟩).seq fun _ ct₂ h₂ => h₂

theorem createObjectAtInode_coherent (h : Coherent closing skip ct) (huse : ct.use n = some (.inode objid))
    (hflag : reservedObjId ≤ objid ∨ ∀ p, ¬ Flagged ct p) :
    Ends (createObjectAtInode objid n) ct (fun _ ct' => Coherent closing skip ct') fun _ _ => True := by
  unfold createObjectAtInode
  refine (getObjectInfo_coherent h hflag).seq fun _ ct₁ hpost => ?_
  obtain ⟨h₁, huse₁⟩ := hpost
  rw [← huse₁] at huse
  refine (allocObjCache_coherent h₁ ⟨_, huse, rfl⟩).seq fun p ct₂ hpost => ?_
  obtain ⟨h₂, huse₂, hp⟩ := hpost
  rw [← huse₂] at huse
  unfold modifyInfo
  rw [ends_bind, ends_modify]
  refine (setCacheState_coherent (h₂.setInode hp huse) p .dirty).seq fun _ ct₃ h₃ => ?_
  refine (modifyInfo_coherent h₃ objid (f := fun o => { o with rootState := .dirty })
    fun _ => ⟨rfl, rfl, rfl, rfl⟩).seq fun _ ct₄ h₄ => ?_
  exact getObjectHandle_coherent h₄ objid

theorem openObject_coherent (h : Coherent closing skip ct) (huse : ct.use n = some (.inode objid))
    (hflag : reservedObjId ≤ objid ∨ ∀ p, ¬ Flagged ct p) :
    Ends (openObject objid n) ct (fun _ ct' => Coherent closing skip ct') fun _ _ => True := by
  unfold openObject recoverObjInode
  refine (getObjectInfo_coherent h hflag).seq fun _ ct₁ hpost => ?_
  obtain ⟨h₁, huse₁⟩ := hpost
  rw [← huse₁] at huse
  rw [bind_assoc]
  refine (indexBlockRead2_coherent h₁ ⟨_, huse, rfl⟩).seq fun p ct₂ hpost => ?_
  obtain ⟨h₂, huse₂, hp⟩ := hpost
  rw [← huse₂] at huse
  unfold modifyInfo
  rw [bind_assoc, ends_bind, ends_modify]
  refine (setCacheState_coherent (h₂.setInode hp huse) p .clean).seq fun _ ct₃ h₃ => ?_
  exact getObjectHandle_coherent h₃ objid

/-! ## Closing an object -/

/-- A cache leaves the tree of an object that is being closed. -/
theorem releaseObjCache_coherent
    (h : Coherent (fun k => closing k ∨ k = objid) (fun k => skip k ∨ k = objid) ct) (p : CachePtr) :
    Ends (releaseObjCache objid p) ct
      (fun _ ct' => Coherent (fun k => closing k ∨ k = objid) (fun k => skip k ∨ k = objid) ct') fun _ _ => True := by
  unfold releaseObjCache
  refine (getCache_spec p ct).seq fun c ct₁ hpost => ?_
  obtain ⟨rfl, hc⟩ := hpost
  split_ifs
  · unfold setCacheFlush putCache
    rw [bind_assoc]
    refine (getCache_spec p ct₁).seq fun c' ct₂ hpost => ?_
    obtain ⟨rfl, hc'⟩ := hpost
    rw [ends_bind, ends_modify]
    refine (getInfo_spec objid _).seq fun o ct₃ hpost => ?_
    obtain ⟨rfl, ho, rfl⟩ := hpost
    refine (avlRemove_spec _ p _).seq fun l ct₄ hpost => ?_
    obtain ⟨rfl, hp, rfl⟩ := hpost
    have h₁ := h.setFlush hc' (h.owner o ho p hp c' hc') (.inr (.inl (.inr rfl)))
    refine (setCaches_spec h₁.objids ho (·.erase p)).mono (fun _ ct₅ hpost => ?_) fun _ _ _ => trivial
    subst hpost
    exact h₁.dropCache fun _ _ _ hs => absurd (.inr rfl) hs
  · exact freeObjCache_coherent h fun _ _ _ hs => absurd (.inr rfl) hs

theorem putObjectInfo_coherent (h : Coherent closing skip ct) (objid : ℕ) :
    Ends (putObjectInfo objid) ct (fun _ ct' => Coherent closing skip ct') fun _ _ => True := by
  have h₁ : Coherent (fun k => closing k ∨ k = objid) (fun k => skip k ∨ k = objid) ct :=
    h.mono (fun _ => .inl) fun _ => .inl
  unfold putObjectInfo releaseObjAllCache
  rw [bind_assoc]
  refine (getInfo_spec objid ct).seq fun o ct₁ hpost => ?_
  obtain ⟨rfl, -, -⟩ := hpost
  refine (Ends.forM (I := fun _ ct' => Coherent (fun k => closing k ∨ k = objid) (fun k => skip k ∨ k = objid) ct')
    h₁ fun p _ _ h' => releaseObjCache_coherent h' p).seq fun _ ct₂ h₂ => ?_
  exact h₂.unregister

theorem ofsCloseObject_coherent (h : Coherent closing skip ct) (hs : ∀ k < reservedObjId, ¬ skip k) (hnd : HandlePtr)
    (update : SystemOps) :
    Ends (ofsCloseObject hnd update) ct (fun _ ct' => Coherent closing skip ct') fun _ _ => True := by
  unfold ofsCloseObject
  rw [ends_bind, ends_get]
  cases ct.objInfoList.find? (hnd ∈ ·.objHndList) with
  | none => trivial
  | some o =>
    dsimp only
    split_ifs
    · trivial
    · unfold putObjectHandle
      refine (modifyInfo_coherent h o.objid (f := fun o =>
        { o with objHndList := o.objHndList.erase hnd, refCnt := uint32 (o.refCnt + (2 ^ 32 - 1)) })
        fun _ => ⟨rfl, rfl, rfl, rfl⟩).seq fun _ ct₁ h₁ => ?_
      refine (getInfo_spec o.objid ct₁).seq fun x ct₂ hpost => ?_
      obtain ⟨rfl, -, -⟩ := hpost
      split_ifs
      · unfold closeObject
        exact (validateObjInode_coherent h₁ hs _ _).seq fun _ _ h₂ => putObjectInfo_coherent h₂ _
      · exact h₁

/-! ## Calls -/

theorem createObject_coherent (h : Coherent closing skip ct) (hs : ∀ k < reservedObjId, ¬ skip k)
    (hflag : reservedObjId ≤ objid ∨ ∀ p, ¬ Flagged ct p) (inodeNo : ℕ) (ops : SystemOps) :
    Ends (createObject objid inodeNo ops) ct (fun _ ct' => Coherent closing skip ct') fun _ _ => True := by
  unfold createObject
  refine Ends.seq' ((runSystemOps_coherent h hs ops).and (runSystemOps_quiet (p := (· < reservedObjId)) SystemObject.id_lt ops ct))
    (fun _ ct₁ hpost => ?_) fun _ _ _ => trivial
  obtain ⟨h₁, hquiet⟩ := hpost
  refine (allocBlock_use inodeNo _ ct₁).seq fun _ ct₂ hpost => ?_
  obtain ⟨hfree, rfl⟩ := hpost
  refine createObjectAtInode_coherent (h₁.take _ hfree) (Function.update_self _ _ _)
    (hflag.imp_right fun hnone q hq => hnone q (hquiet.flags q hq))

theorem ofsCreateObject_coherent (h : Coherent closing skip ct) (hs : ∀ k < reservedObjId, ¬ skip k)
    (objid inodeNo : ℕ) (search : List ℕ) (alloc insert : SystemOps) :
    Ends (ofsCreateObject objid inodeNo search alloc insert) ct (fun _ ct' => Coherent closing skip ct')
      fun _ _ => True := by
  unfold ofsCreateObject
  rw [ends_bind, ends_assertThat]
  refine ⟨fun _ => ?_, fun _ => trivial⟩
  split_ifs with hreserved
  · trivial
  · rw [ends_bind, ends_get]
    split_ifs
    · trivial
    · refine (readIdBlocks_coherent h hs search).seq fun _ ct₁ h₁ => ?_
      refine (h₁.keeps (Relates.codeOf (idSearch_keeps _ _))).seq fun r ct₂ h₂ => ?_
      cases r with
      | ok value => trivial
      | error e =>
        dsimp only
        split_ifs
        · trivial
        · refine (createObject_coherent h₂ hs (.inl (not_lt.mp hreserved)) inodeNo alloc).seq fun hnd ct₃ h₃ => ?_
          refine (runSystemOps_coherent h₃ hs insert).seq fun _ ct₄ h₄ => ?_
          refine (getInfo_spec objid ct₄).seq fun o ct₅ hpost => ?_
          obtain ⟨rfl, -, -⟩ := hpost
          exact (h₄.keeps (idInsert_keeps (fun _ _ => rfl) _ _)).seq fun _ _ h₅ => h₅

/-- The entry of a closed object names a block that is in use for its inode. -/
theorem ofsOpenObject_coherent (h : Coherent closing skip ct) (hs : ∀ k < reservedObjId, ¬ skip k)
    (hr : Registry ct.view l) (hobjid : objid < 2 ^ 64) (search : List ℕ) :
    Ends (ofsOpenObject objid search) ct (fun _ ct' => Coherent closing skip ct') fun _ _ => True := by
  unfold ofsOpenObject
  rw [ends_bind, ends_get]
  split_ifs with hany
  · exact getObjectHandle_coherent h objid
  · simp only [List.any_eq_true, decide_eq_true_eq, not_exists, not_and] at hany
    refine Ends.seq' ((readIdBlocks_coherent h hs search).and (readIdBlocks_keeps search ct))
      (fun _ ct₁ hpost => ?_) fun _ _ _ => trivial
    obtain ⟨h₁, hview⟩ := hpost
    rw [← hview] at hr
    have hclosed : ∀ o ∈ ct₁.view.objs, o.objid ≠ objid := by
      rw [hview]
      exact List.forall_mem_map.mpr hany
    refine (idSearch_spec hr.tree hr.ids (osBstrToU64_u64Bytes hobjid)).seq' (fun value ct₂ hpost => ?_)
      fun _ _ _ => trivial
    obtain ⟨rfl, n, hn, rfl⟩ := hpost
    rw [osBstrToU64_osU64ToBstr (hr.ids.bound _ hn).2, ends_bind, ends_fromExcept_ok]
    exact openObject_coherent h₁ (hr.closed _ hn hclosed) (.inl (hr.user _ hn).1)

/-! ## The first state -/

theorem getObjectInfo_quiet (objid : ℕ) : Relates (Quiet fun _ => True) (getObjectInfo objid) := by
  intro ct
  unfold getObjectInfo
  rw [ends_bind, ends_get]
  dsimp only
  split_ifs
  · exact refl_of (Quiet _) ct
  · exact ⟨fun _ h => h, fun _ _ h => absurd trivial h⟩

theorem getObjectHandle_quiet (objid : ℕ) : Relates (Quiet fun _ => True) (getObjectHandle objid) :=
  Relates.get.bind fun _ => Relates.bind (Relates.modify fun _ => .same rfl rfl) fun _ =>
    (modifyInfo_quiet (.inl trivial)).bind fun _ => Relates.pure _

theorem createObjectAtInode_quiet (objid inodeNo : ℕ) :
    Relates (Quiet fun _ => True) (createObjectAtInode objid inodeNo) :=
  (getObjectInfo_quiet objid).bind fun _ => (allocObjCache_quiet trivial _).bind fun _ =>
    (modifyInfo_quiet (.inl trivial)).bind fun _ => (setCacheState_quiet _ _).bind fun _ =>
      (modifyInfo_quiet (.inl trivial)).bind fun _ => getObjectHandle_quiet objid

theorem openObject_quiet (objid inodeNo : ℕ) : Relates (Quiet fun _ => True) (openObject objid inodeNo) := by
  have hrecover : Relates (Quiet fun _ => True) (recoverObjInode objid inodeNo) :=
    (indexBlockRead2_quiet trivial _).bind fun _ => (modifyInfo_quiet (.inl trivial)).bind fun _ =>
      setCacheState_quiet _ _
  exact (getObjectInfo_quiet objid).bind fun _ => hrecover.bind fun _ => getObjectHandle_quiet objid

/-- The trees of caches of a container that has just been created or opened. -/
structure Clear (ct : Container) : Prop where
  coherent : Coherent (fun _ => False) (fun _ => False) ct
  unflagged : ∀ p, ¬ Flagged ct p

theorem Container.Blank.clear (h : ct.Blank) : Clear ct := by
  refine ⟨⟨?_, ?_, ?_, ?_, ?_, ?_, ?_, ?_, ?_⟩, fun p ⟨c, hc, _⟩ => ?_⟩
  all_goals simp_all [h.metadataCache, h.objInfoList, h.heap]

theorem Clear.ends {α : Type} {x : ObjectM α} (h : Clear ct)
    (hx : Ends x ct (fun _ ct' => Coherent (fun _ => False) (fun _ => False) ct') fun _ _ => True)
    (hquiet : Relates (Quiet fun _ => True) x) : Ends x ct (fun _ ct' => Clear ct') fun _ _ => True :=
  (hx.and (hquiet ct)).mono (fun _ _ h' => ⟨h'.1, fun p hp => h.unflagged p (h'.2.flags p hp)⟩) fun _ _ _ => trivial

theorem Clear.runOp (h : Clear ct) (op : ObjectOp) :
    Ends (runOp objid op) ct (fun _ ct' => Clear ct') fun _ _ => True :=
  h.ends (runOp_coherent h.coherent id op) (runOp_quiet trivial op)

/-- An object of the container is created. -/
theorem Clear.create (h : Clear ct) (objid inodeNo : ℕ) :
    Ends (do allocBlock inodeNo (.inode objid); createObjectAtInode objid inodeNo) ct (fun _ ct' => Clear ct')
      fun _ _ => True := by
  refine h.ends ?_ ((allocBlock_quiet _ _).bind fun _ => createObjectAtInode_quiet _ _)
  refine (allocBlock_use inodeNo _ ct).seq fun _ ct₁ hpost => ?_
  obtain ⟨hfree, rfl⟩ := hpost
  exact createObjectAtInode_coherent (h.coherent.take _ hfree)
    (Function.update_self _ _ _) (.inr h.unflagged)

/-- An object of the container is opened. -/
theorem Clear.open (h : Clear ct) (huse : ct.use n = some (.inode objid)) :
    Ends (openObject objid n) ct (fun _ ct' => Clear ct' ∧ ct'.use = ct.use ∧ ct'.spaceInodeNo = ct.spaceInodeNo ∧
      ct'.objidInodeNo = ct.objidInodeNo) fun _ _ => True := by
  refine ((h.ends (openObject_coherent h.coherent huse (.inr h.unflagged)) (openObject_quiet _ _)).and
    (openObject_spec objid n ct)).mono (fun _ ct' hpost => ?_) fun _ _ _ => trivial
  obtain ⟨h', -, -, p, hview⟩ := hpost
  exact ⟨h', congrArg View.use hview, congrArg View.spaceInodeNo hview, congrArg View.objidInodeNo hview⟩

theorem createSystemObjects_clear (h : Clear ct) (inodeNo : ℕ) (ops : SystemOps) :
    Ends (createSystemObjects inodeNo ops) ct (fun _ ct' => Clear ct') fun _ _ => True := by
  unfold createSystemObjects
  rw [← bind_assoc]
  refine (h.create baseObjId baseObjInode).seq fun base ct₁ h₁ => ?_
  refine (h₁.runOp .setName).seq fun _ ct₂ h₂ => ?_
  rw [← bind_assoc]
  refine (h₂.create spaceObjId spaceObjInode).seq fun space ct₃ h₃ => ?_
  refine (h₃.runOp .setName).seq fun _ ct₄ h₄ => ?_
  unfold createObject
  rw [bind_assoc]
  refine (h₄.ends (runSystemOps_coherent h₄.coherent (fun _ _ => id) ops)
    (runSystemOps_quiet (fun _ => trivial) ops)).seq fun _ ct₅ h₅ => ?_
  refine (h₅.create objidObjId inodeNo).seq fun objid ct₆ h₆ => ?_
  refine (h₆.runOp .setName).seq fun _ ct₇ h₇ => ?_
  exact ⟨h₇.coherent.congr rfl, h₇.unflagged⟩

theorem openSystemObjects_clear {ids : List (ℕ × ℕ)} (hct : ct.Stored ids) :
    Ends openSystemObjects ct (fun _ ct' => Clear ct') fun _ _ => True := by
  unfold openSystemObjects
  rw [ends_bind, ends_get]
  refine (hct.toBlank.clear.open hct.base).seq fun base ct₁ hpost => ?_
  obtain ⟨h₁, huse₁, hspace₁, hobjid₁⟩ := hpost
  rw [ends_bind, ends_get]
  refine (h₁.open (by rw [huse₁, hspace₁]; exact hct.space)).seq fun space ct₂ hpost => ?_
  obtain ⟨h₂, huse₂, -, hobjid₂⟩ := hpost
  rw [ends_bind, ends_get]
  refine (h₂.open (by rw [huse₂, huse₁, hobjid₂, hobjid₁]; exact hct.objid)).seq fun objid ct₃ hpost => ?_
  exact hpost.1

/-! ## Runs -/

theorem Session.Start.clear {s : Session} (h : s.Start) : Clear s.ct := by
  cases h with
  | create hct hrun => exact (ends_of_ok hrun).mp (createSystemObjects_clear hct.toBlank.clear _ _)
  | «open» hct hrun => exact (ends_of_ok hrun).mp (openSystemObjects_clear hct)

/-- A commit finds no flagged cache in the tree of an open object. -/
def CommitsUnflagged (s : Session) : Call → Prop
  | .commit _ => Unflagged s.ct
  | _ => True

instance (s : Session) (c : Call) : Decidable (CommitsUnflagged s c) :=
  match c with
  | .commit _ => inferInstanceAs (Decidable (Unflagged s.ct))
  | .create .. | .open .. | .close .. | .index .. => .isTrue trivial

theorem Session.Step.coherent {s s' : Session} {c : Call} (hstep : s.Step c s') (hs : s.Registered)
    (h : Coherent (fun _ => False) (fun _ => False) s.ct) (hok : CommitsUnflagged s c) :
    Coherent (fun _ => False) (fun _ => False) s'.ct := by
  obtain ⟨l, hr⟩ := hs
  cases hstep with
  | create hobjid hrun => exact (ends_of_ok hrun).mp (ofsCreateObject_coherent h (fun _ _ => id) _ _ _ _ _)
  | «open» hobjid hrun => exact (ends_of_ok hrun).mp (ofsOpenObject_coherent h (fun _ _ => id) hr hobjid _)
  | close hheld hrun => exact (ends_of_ok hrun).mp (ofsCloseObject_coherent h (fun _ _ => id) _ _)
  | index hrun => exact (ends_of_ok hrun).mp (runOp_coherent h id _)
  | commit hrun => exact (ends_of_ok hrun).mp (commitContainerModification_coherent h hok _)

theorem Session.Reached.coherent {s : Session} (hs : s.Reached CommitsUnflagged) :
    s.Registered ∧ Coherent (fun _ => False) (fun _ => False) s.ct := by
  induction hs with
  | start h => exact ⟨h.registered, h.clear.coherent⟩
  | step _ hok hstep ih => exact ⟨hstep.registered ih.1, hstep.coherent ih.1 ih.2 hok⟩

/-- The trees of caches of a run whose commits find no flagged cache in the tree of an open object. -/
theorem caches_coherent {s : Session} (hs : s.Reached CommitsUnflagged) : CacheCoherent s.ct :=
  hs.coherent.2.cacheCoherent

/-- An object gets a block and is closed; after a commit it is opened and changed again. -/
def reopenedCalls : List Call :=
  [.create 128 15 [] [] [], .index 128 (.alloc 16), .index 128 (.setRootDirty 17), .close 3 [],
    .commit fun _ => [], .open 128 [], .index 128 (.read 16), .index 128 (.setDirty 16 18), .commit fun _ => []]

/-- The inode and the block of the object are in its tree after the second commit. -/
theorem caches_coherent_reopened : ∃ s : Session, s.Reached CommitsUnflagged ∧
    s.ct.objInfoList.map (fun o => o.caches.length) = [1, 1, 1, 2] ∧ CacheCoherent s.ct := by
  obtain ⟨s, hs, hcaches⟩ : ∃ s : Session, s.Reached CommitsUnflagged ∧
      s.ct.objInfoList.map (fun o => o.caches.length) = [1, 1, 1, 2] :=
    Session.Reached.of_calls reopenedCalls (by decide +kernel)
  exact ⟨s, hs, hcaches, caches_coherent hs⟩

/-! ## A cache that is freed while an object has it -/

/-- An object gets a block, is closed, and is opened and read again before the next commit. -/
def flaggedCalls : List Call :=
  [.create 128 15 [] [] [], .index 128 (.alloc 16), .close 3 [], .open 128 [], .index 128 (.read 16),
    .commit fun _ => []]

/-- The commit frees the cache of a block that the open object has in its tree. -/
theorem reopened_cache_freed : ∃ s : Session, s.Reached (fun _ _ => True) ∧ ¬ CacheCoherent s.ct := by
  obtain ⟨s, hs, o, ho, p, hp, hfreed⟩ : ∃ s : Session, s.Reached (fun _ _ => True) ∧
      ∃ o ∈ s.ct.objInfoList, ∃ p ∈ o.caches, s.ct.heap p = none :=
    Session.Reached.of_calls flaggedCalls (by decide +kernel)
  refine ⟨s, hs, fun hcoherent => ?_⟩
  obtain ⟨-, c, hc⟩ := hcoherent.registered o ho p hp
  rw [hfreed] at hc
  cases hc

end IndexFs.Object
