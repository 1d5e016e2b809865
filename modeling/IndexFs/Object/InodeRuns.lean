import IndexFs.Object.Inodes

/-!
# Where the inodes are over a run

Every call loses no inode but one: `recover_obj_inode` marks the cache of an inode clean,
also one that waits to be written. After that the next flush leaves it out.

* `validateAllObjects_kept`: validation marks the inodes of dirty objects.
* `commitContainerModification_inodes`: after a commit every inode is on the disk.
* `Session.Reached.inodes`: no inode is lost in a run that opens no object whose inode waits.
-/

namespace IndexFs.Object

open IndexFs.Collate IndexFs.Space

variable {ct ct' : Container} {closing skip : ℕ → Prop} {l : List (ℕ × ℕ)} {objid n : ℕ}

/-! ## Validation -/

theorem runSystemOps_retains (h : Coherent closing skip ct) (hs : ∀ k < reservedObjId, ¬ skip k) (ops : SystemOps) :
    Ends (runSystemOps ops) ct (fun _ ct' => Coherent closing skip ct' ∧ Retains ct ct') fun _ _ => True := by
  refine Ends.forM (I := fun _ (ct' : Container) => Coherent closing skip ct' ∧ Retains ct ct') ⟨h, .refl ct⟩
    fun x _ ct₁ hpost => ?_
  obtain ⟨h₁, hret⟩ := hpost
  have hx := hs _ x.1.id_lt
  exact ((runOp_coherent h₁ hx x.2).and (runOp_retains h₁ hx x.2 (.inl x.1.id_lt))).mono
    (fun _ _ hpost => ⟨hpost.1, hret.trans hpost.2⟩) fun _ _ _ => trivial

/-- A search of the objid tree changes neither the inodes nor what waits. -/
theorem readIdBlocks_still (h : Coherent closing skip ct) (hs : ∀ k < reservedObjId, ¬ skip k) (vbns : List ℕ) :
    Ends (readIdBlocks vbns) ct (fun _ ct' => Coherent closing skip ct' ∧ Still ct ct') fun _ _ => True := by
  refine Ends.forM (I := fun _ (ct' : Container) => Coherent closing skip ct' ∧ Still ct ct') ⟨h, .refl ct⟩
    fun vbn _ ct₁ hpost => ?_
  obtain ⟨h₁, hstill⟩ := hpost
  have hread : Ends (runOp objidObjId (.read vbn)) ct₁ (fun _ ct' => Still ct₁ ct') fun _ _ => True := by
    refine readOp_ends fun _ => ?_
    exact (indexBlockRead2_still h₁ objidObjId vbn).mono (fun _ _ hpost => hpost.1) fun _ _ _ => trivial
  exact ((runOp_coherent h₁ (hs _ (by decide)) (.read vbn)).and hread).mono
    (fun _ _ hpost => ⟨hpost.1, hstill.trans hpost.2⟩) fun _ _ _ => trivial

/-- The entries of the objid tree are another matter. -/
theorem Still.keeps {α : Type} {x : ObjectM α} (hx : Keeps (fun ct => (ct.trees, ct.onDisk)) x) (ct : Container) :
    Ends x ct (fun _ ct' => Still ct ct') fun _ ct' => Still ct ct' :=
  (hx ct).mono (fun _ _ h => .of_trees (congrArg Prod.fst h) (congrArg Prod.snd h))
    fun _ _ h => .of_trees (congrArg Prod.fst h) (congrArg Prod.snd h)

/-- Validation loses no inode, and afterwards that of the object is on the disk or waits. -/
theorem validateObjInode_retains (h : Coherent closing skip ct) (hs : ∀ k, ¬ skip k) (hr : Registry ct.view l)
    (hi : Inodes ct) (objid : ℕ) (ops : SystemOps) :
    Ends (validateObjInode objid ops) ct
      (fun _ ct' => Retains ct ct' ∧ (reservedObjId ≤ objid → ∀ n, ct'.use n = some (.inode objid) → Kept ct' n))
      fun _ _ => True := by
  unfold validateObjInode
  refine (getInfo_spec objid ct).seq fun o ct₁ hpost => ?_
  obtain ⟨rfl, ho, rfl⟩ := hpost
  split_ifs with hd
  · refine ⟨.refl _, fun hk n hn => (hi n _ hk hn).resolve_right ?_⟩
    rintro ⟨x, hx, hid, hd'⟩
    rw [h.unique hx ho hid] at hd'
    exact hd hd'
  all_goals
    obtain ⟨hp, ⟨c, hc, hvbn⟩, -⟩ := h.inode o ho (hs _)
    refine Ends.seq' ((setCacheState_coherent h o.inodeCache .dirty).and
      (setCacheDirty_retains (h.registered o ho _ hp))) (fun _ ct₂ hpost => ?_) fun _ _ _ => trivial
    obtain ⟨h₂, hret, hwaits⟩ := hpost
    replace hwaits := hvbn ▸ hwaits c hc
    -- what follows keeps the inode where it waits
    have hrest : ∀ ct', Retains ct₂ ct' → Retains ct₁ ct' ∧
        (reservedObjId ≤ o.objid → ∀ n, ct'.use n = some (.inode o.objid) → Kept ct' n) := by
      refine fun ct' hret' => ⟨hret.trans hret', fun hk n hn => ?_⟩
      obtain ⟨hn₂, hkept⟩ := hret'.inode n _ hk hn
      have hn₁ := (hret.inode n _ hk hn₂).1
      rcases hr.inode n _ hk hn₁ with ⟨x, hx, hid, rfl⟩ | ⟨hclosed, -⟩
      · obtain rfl := hr.unique hx (core_mem ho) hid
        exact hkept (.inr hwaits)
      · exact absurd (core_objid o) (hclosed o.core (core_mem ho))
    refine Ends.seq' ((modifyInfo_coherent h₂ o.objid (f := fun x => { x with inodeNo := o.rootVbn })
      fun _ => ⟨rfl, rfl, rfl, rfl⟩).and (modifyInfo_still o.objid (f := fun x => { x with inodeNo := o.rootVbn })
        (fun _ => ⟨rfl, rfl⟩) ct₂)) (fun _ ct₃ hpost => ?_) fun _ _ _ => trivial
    obtain ⟨h₃, hstill⟩ := hpost
    have hsuper : ∀ ct', ct'.trees = ct₃.trees → ct'.onDisk = ct₃.onDisk → Retains ct₂ ct' := fun ct' htrees hdisk =>
      (hstill.trans (.of_trees htrees hdisk)).retains
  -- the numbers of the system objects are in the super block
  · exact hrest _ (hsuper _ rfl rfl)
  · exact hrest _ (hsuper _ rfl rfl)
  · exact hrest _ (hsuper _ rfl rfl)
  · refine (runSystemOps_retains h₃ (fun k _ => hs k) ops).seq fun _ ct₄ hpost => ?_
    have hupdate : Keeps (fun ct => (ct.trees, ct.onDisk)) (idUpdate (osU64ToBstr o.objid) (osU64ToBstr o.rootVbn)) :=
      idUpdate_keeps (fun _ _ => rfl) _ _
    refine (Still.keeps (Relates.codeOf hupdate) ct₄).seq' (fun _ ct₅ hstill₅ => ?_) fun _ _ _ => trivial
    exact hrest _ (hstill.retains.trans (hpost.2.trans hstill₅.retains))

/-- What `validate_obj_inode` keeps. -/
theorem validateObjInode_inodes (h : Coherent closing skip ct) (hs : ∀ k, ¬ skip k) (hr : ∃ l, Registry ct.view l)
    (hi : Inodes ct) (objid : ℕ) (ops : SystemOps) :
    Ends (validateObjInode objid ops) ct
      (fun _ ct' => Coherent closing skip ct' ∧ (∃ l, Registry ct'.view l) ∧ Retains ct ct' ∧
        (reservedObjId ≤ objid → ∀ n, ct'.use n = some (.inode objid) → Kept ct' n)) fun _ _ => True := by
  obtain ⟨l, hr⟩ := hr
  refine (((validateObjInode_coherent h (fun k _ => hs k) objid ops).and (validateObjInode_spec hr objid ops)).and
    (validateObjInode_retains h hs hr hi objid ops)).mono (fun _ ct' hpost => ?_) fun _ _ _ => trivial
  obtain ⟨⟨h', l', hvalid⟩, hret, hkept⟩ := hpost
  exact ⟨h', ⟨l', hvalid.registry⟩, hret, hkept⟩

/-- After `validate_all_objects` every inode is on the disk or waits. -/
theorem validateAllObjects_kept (h : Coherent closing skip ct) (hs : ∀ k, ¬ skip k) (hr : ∃ l, Registry ct.view l)
    (hi : Inodes ct) (updates : ℕ → SystemOps) :
    Ends (validateAllObjects updates) ct
      (fun _ ct' => ∀ n k, reservedObjId ≤ k → ct'.use n = some (.inode k) → Kept ct' n) fun _ _ => True := by
  unfold validateAllObjects
  rw [ends_bind, ends_get]
  -- the objects that are still to be validated may have inodes that do not wait yet
  have hfirst : Ends ((ct.objInfoList.filter (reservedObjId ≤ ·.objid)).forM fun o =>
      validateObjInode o.objid (updates o.objid)) ct
      (fun _ ct' => Coherent closing skip ct' ∧ (∃ l, Registry ct'.view l) ∧ Inodes ct' ∧
        ∀ n k, reservedObjId ≤ k → ct'.use n = some (.inode k) →
          Kept ct' n ∨ ∃ x ∈ ([] : List ObjectInfo), x.objid = k)
      fun _ _ => True := by
    refine Ends.forM (I := fun (rest : List ObjectInfo) (ct' : Container) => Coherent closing skip ct' ∧
      (∃ l, Registry ct'.view l) ∧ Inodes ct' ∧ ∀ n k, reservedObjId ≤ k → ct'.use n = some (.inode k) →
        Kept ct' n ∨ ∃ x ∈ rest, x.objid = k) ⟨h, hr, hi, fun n k hk hn => ?_⟩ fun x rest ct₁ hpost => ?_
    · refine (hi n k hk hn).imp_right fun ⟨o, ho, hid, _⟩ => ⟨o, List.mem_filter.mpr ⟨ho, ?_⟩, hid⟩
      simpa [hid] using hk
    · obtain ⟨h₁, hr₁, hi₁, hrest⟩ := hpost
      refine (validateObjInode_inodes h₁ hs hr₁ hi₁ x.objid _).mono (fun _ ct₂ hpost => ?_) fun _ _ _ => trivial
      obtain ⟨h₂, hr₂, hret, hkept⟩ := hpost
      refine ⟨h₂, hr₂, hret.inodes hi₁, fun n k hk hn => ?_⟩
      by_cases hx : k = x.objid
      · subst hx
        exact .inl (hkept hk n hn)
      · obtain ⟨hn₁, hk₁⟩ := hret.inode n k hk hn
        rcases hrest n k hk hn₁ with hn₁ | ⟨y, hy, hyk⟩
        · exact .inl (hk₁ hn₁)
        · rcases List.mem_cons.mp hy with rfl | hy
          · exact absurd hyk.symm hx
          · exact .inr ⟨y, hy, hyk⟩
  refine hfirst.seq fun _ ct₁ hpost => ?_
  obtain ⟨h₁, hr₁, hi₁, hkept₁⟩ := hpost
  refine (Ends.forM (F := fun _ _ => True) (I := fun _ (ct' : Container) => Coherent closing skip ct' ∧
    (∃ l, Registry ct'.view l) ∧ ∀ n k, reservedObjId ≤ k → ct'.use n = some (.inode k) → Kept ct' n)
    ⟨h₁, hr₁, fun n k hk hn => by simpa using hkept₁ n k hk hn⟩ fun x rest ct₂ hpost => ?_).mono
      (fun _ _ hpost => hpost.2.2) fun _ _ _ => trivial
  obtain ⟨h₂, hr₂, hkept₂⟩ := hpost
  have hi₂ : Inodes ct₂ := fun n k hk hn => .inl (hkept₂ n k hk hn)
  refine (validateObjInode_inodes h₂ hs hr₂ hi₂ x.objid _).mono (fun _ ct₃ hpost => ?_) fun _ _ _ => trivial
  obtain ⟨h₃, hr₃, hret, -⟩ := hpost
  refine ⟨h₃, hr₃, fun n k hk hn => ?_⟩
  obtain ⟨hn₂, hk₂⟩ := hret.inode n k hk hn
  exact hk₂ (hkept₂ n k hk hn₂)

/-! ## Commit -/

/-- A cache that is still to be flushed has the block. -/
def WaitsIn (rest : List CachePtr) (ct : Container) (n : ℕ) : Prop :=
  ∃ p ∈ rest, ∃ c, ct.heap p = some c ∧ c.vbn = n ∧ c.state = .dirty

/-- A cache is written, and what waits in the others still does. -/
theorem flushContainerDirtyCache_onDisk (p : CachePtr) (rest : List CachePtr) (ct : Container) :
    Ends (flushContainerDirtyCache p) ct
      (fun _ ct' => ct'.use = ct.use ∧ ∀ n, ct.onDisk n = true ∨ WaitsIn (p :: rest) ct n →
        ct'.onDisk n = true ∨ WaitsIn rest ct' n) fun _ _ => True := by
  unfold flushContainerDirtyCache
  refine (getCache_spec p ct).seq fun c ct₁ hpost => ?_
  obtain ⟨rfl, hc⟩ := hpost
  split_ifs with hd hf
  · refine ⟨rfl, fun n hn => hn.imp_right ?_⟩
    rintro ⟨q, hq, c', hc', hvbn, hd'⟩
    rcases List.mem_cons.mp hq with rfl | hq
    · obtain rfl := Option.some.inj (hc.symm.trans hc')
      exact absurd hd' hd
    · exact ⟨q, hq, c', hc', hvbn, hd'⟩
  all_goals
    -- the heap changes at this cache, the disk at its block
    have hwritten : ∀ ct' : Container, (∀ q, q ≠ p → ct'.heap q = ct₁.heap q) →
        ct'.onDisk = Function.update ct₁.onDisk c.vbn true → ∀ n, ct₁.onDisk n = true ∨ WaitsIn (p :: rest) ct₁ n →
          ct'.onDisk n = true ∨ WaitsIn rest ct' n := by
      intro ct' hheap hdisk n hn
      by_cases hvbn : n = c.vbn
      · rw [hdisk, hvbn, Function.update_self]
        exact .inl rfl
      · rw [hdisk, Function.update_of_ne hvbn]
        refine hn.imp_right ?_
        rintro ⟨q, hq, c', hc', rfl, hd'⟩
        have hqp : q ≠ p := by
          rintro rfl
          obtain rfl := Option.some.inj (hc.symm.trans hc')
          exact hvbn rfl
        exact ⟨q, (List.mem_cons.mp hq).resolve_left hqp, c', (hheap q hqp).trans hc', rfl, hd'⟩
    unfold updateBlock
    rw [ends_bind, ends_modify]
  · refine (setCacheState_spec p .clean _).seq fun _ ct₂ hpost => ?_
    obtain ⟨c', -, rfl⟩ := hpost
    unfold freeContainerCache osFree
    rw [ends_bind, ends_get]
    refine (avlRemove_spec _ p _).seq fun l ct₃ hpost => ?_
    obtain ⟨rfl, -, -⟩ := hpost
    rw [ends_bind, ends_modify, ends_modify]
    refine ⟨rfl, hwritten _ (fun q hq => ?_) rfl⟩
    exact (Function.update_of_ne hq _ _).trans (Function.update_of_ne hq _ _)
  · refine (setCacheState_spec p .clean _).mono (fun _ ct₂ hpost => ?_) fun _ _ _ => trivial
    obtain ⟨c', -, rfl⟩ := hpost
    exact ⟨rfl, hwritten _ (fun q hq => Function.update_of_ne hq _ _) rfl⟩

/-- The flush writes what waits. -/
theorem flushContainerCache_onDisk (ct : Container) :
    Ends flushContainerCache ct (fun _ ct' => ct'.use = ct.use ∧ ∀ n, Kept ct n → ct'.onDisk n = true)
      fun _ _ => True := by
  unfold flushContainerCache
  rw [ends_bind, ends_get]
  refine (Ends.forM (I := fun (rest : List CachePtr) (ct' : Container) => ct'.use = ct.use ∧
    ∀ n, Kept ct n → ct'.onDisk n = true ∨ WaitsIn rest ct' n) ⟨rfl, fun _ => id⟩ fun p rest ct₁ hpost => ?_).seq
      fun _ ct₁ hpost => ⟨hpost.1, fun n hn => ?_⟩
  · obtain ⟨huse, hrest⟩ := hpost
    refine (flushContainerDirtyCache_onDisk p rest ct₁).mono (fun _ ct₂ hpost => ?_) fun _ _ _ => trivial
    exact ⟨hpost.1.trans huse, fun n hn => hpost.2 n (hrest n hn)⟩
  · refine (hpost.2 n hn).resolve_right ?_
    rintro ⟨p, hp, -⟩
    cases hp

/-- After a commit every inode is on the disk. -/
theorem commitContainerModification_inodes (h : Coherent closing skip ct) (hs : ∀ k, ¬ skip k)
    (hr : ∃ l, Registry ct.view l) (hi : Inodes ct) (updates : ℕ → SystemOps) :
    Ends (commitContainerModification updates) ct
      (fun _ ct' => ∀ n k, reservedObjId ≤ k → ct'.use n = some (.inode k) → ct'.onDisk n = true)
      fun _ _ => True := by
  unfold commitContainerModification
  refine (validateAllObjects_kept h hs hr hi updates).seq fun _ ct₁ hkept => ?_
  refine (flushContainerCache_onDisk ct₁).seq fun _ ct₂ hpost => ?_
  obtain ⟨huse, hdisk⟩ := hpost
  unfold cleanAllObjRootCache
  rw [ends_modify]
  exact fun n k hk hn => hdisk n (hkept n k hk (huse ▸ hn))

/-! ## Closing an object -/

/-- A dirty cache that is released stays in the tree of the container. -/
theorem releaseObjCache_retains (hids : (ct.objInfoList.map ObjectInfo.objid).Nodup) (objid : ℕ) (p : CachePtr) :
    Ends (releaseObjCache objid p) ct (fun _ ct' => Retains ct ct') fun _ _ => True := by
  unfold releaseObjCache
  refine (getCache_spec p ct).seq fun c ct₁ hpost => ?_
  obtain ⟨rfl, hc⟩ := hpost
  split_ifs with hd
  · unfold setCacheFlush putCache
    rw [bind_assoc]
    refine (getCache_spec p ct₁).seq fun c' ct₂ hpost => ?_
    obtain ⟨rfl, hc'⟩ := hpost
    obtain rfl := Option.some.inj (hc.symm.trans hc')
    rw [ends_bind, ends_modify]
    refine (getInfo_spec objid _).seq fun o ct₃ hpost => ?_
    obtain ⟨rfl, ho, rfl⟩ := hpost
    refine (avlRemove_spec _ p _).seq fun l ct₄ hpost => ?_
    obtain ⟨rfl, -, -⟩ := hpost
    exact (modifyInfo_still o.objid (f := fun x => { x with caches := l }) (fun _ => ⟨rfl, rfl⟩) _).mono
      (fun _ _ hstill => (Retains.setFlush hc).trans hstill.retains) fun _ _ _ => trivial
  · unfold freeObjCache osFree
    refine (removeObjCache_spec hids objid p).seq fun _ ct₂ hpost => ?_
    obtain ⟨rfl, -⟩ := hpost
    rw [ends_modify]
    refine ⟨fun n k _ hn => ⟨hn, fun hk => hk.others (p := p) (fun q hq => Function.update_of_ne hq _ _)
      (fun q hq hqp => (List.mem_erase_of_ne hqp).mpr hq) rfl fun c' hc' hd' => ?_⟩, fun k hk => ?_⟩
    · obtain rfl := Option.some.inj (hc.symm.trans hc')
      exact absurd hd' hd
    · exact (dirtyRoot_mapInfo (f := fun o => { o with caches := o.caches.erase p }) (fun _ => ⟨rfl, rfl⟩)
        ct₁ objid k).mpr hk

/-- An object goes off the list when its own inode is on the disk or waits. -/
theorem putObjectInfo_inodes (h : Coherent closing skip ct) (hi : Inodes ct)
    (hkept : reservedObjId ≤ objid → ∀ n, ct.use n = some (.inode objid) → Kept ct n) :
    Ends (putObjectInfo objid) ct (fun _ ct' => Inodes ct') fun _ _ => True := by
  have h₁ : Coherent (fun k => closing k ∨ k = objid) (fun k => skip k ∨ k = objid) ct :=
    h.mono (fun _ => .inl) fun _ => .inl
  unfold putObjectInfo releaseObjAllCache
  rw [bind_assoc]
  refine (getInfo_spec objid ct).seq fun o ct₁ hpost => ?_
  obtain ⟨rfl, -, -⟩ := hpost
  refine (Ends.forM (I := fun _ ct' => Coherent (fun k => closing k ∨ k = objid) (fun k => skip k ∨ k = objid) ct' ∧
    Retains ct₁ ct') ⟨h₁, .refl ct₁⟩ fun p _ ct₂ hpost => ?_).seq fun _ ct₂ hpost => ?_
  · obtain ⟨h₂, hret⟩ := hpost
    exact ((releaseObjCache_coherent h₂ p).and (releaseObjCache_retains h₂.objids objid p)).mono
      (fun _ _ hpost => ⟨hpost.1, hret.trans hpost.2⟩) fun _ _ _ => trivial
  · obtain ⟨-, hret⟩ := hpost
    rw [ends_modify]
    intro n k hk hn
    obtain ⟨hn₁, hret₁⟩ := hret.inode n k hk hn
    by_cases hko : k = objid
    · subst hko
      exact .inl (hret₁ (hkept hk n hn₁))
    · rcases hi n k hk hn₁ with hkept₁ | hd
      · exact .inl (hret₁ hkept₁)
      · obtain ⟨x, hx, rfl, hdx⟩ := hret.roots k hd
        exact .inr ⟨x, List.mem_filter.mpr ⟨hx, by simpa using hko⟩, rfl, hdx⟩

theorem ofsCloseObject_inodes (h : Coherent closing skip ct) (hs : ∀ k, ¬ skip k) (hr : Registry ct.view l)
    (hi : Inodes ct) (hnd : HandlePtr) (update : SystemOps) :
    Ends (ofsCloseObject hnd update) ct (fun _ ct' => Inodes ct') fun _ _ => True := by
  unfold ofsCloseObject
  rw [ends_bind, ends_get]
  cases ct.objInfoList.find? (hnd ∈ ·.objHndList) with
  | none => trivial
  | some o =>
    dsimp only
    split_ifs
    · trivial
    · let f := fun o : ObjectInfo =>
        { o with objHndList := o.objHndList.erase hnd, refCnt := uint32 (o.refCnt + (2 ^ 32 - 1)) }
      unfold putObjectHandle
      refine Ends.seq' (((modifyInfo_coherent h o.objid (f := f) fun _ => ⟨rfl, rfl, rfl, rfl⟩).and
        (modifyInfo_still o.objid (f := f) (fun _ => ⟨rfl, rfl⟩) ct)).and (modifyInfo_spec o.objid f (fun _ => rfl) ct
          (F := fun _ _ => True))) (fun _ ct₁ hpost => ?_) fun _ _ _ => trivial
      obtain ⟨⟨h₁, hstill⟩, hview⟩ := hpost
      have hr₁ : ∃ l, Registry ct₁.view l := ⟨l, hview ▸ hr.mapHandles o.objid _ _⟩
      have hi₁ := hstill.retains.inodes hi
      refine (getInfo_spec o.objid ct₁).seq fun x ct₂ hpost => ?_
      obtain ⟨rfl, -, -⟩ := hpost
      split_ifs
      · unfold closeObject
        refine (validateObjInode_inodes h₁ hs hr₁ hi₁ o.objid update).seq fun _ ct₃ hpost => ?_
        obtain ⟨h₃, -, hret, hkept⟩ := hpost
        exact putObjectInfo_inodes h₃ (hret.inodes hi₁) hkept
      · exact hi₁

/-! ## Opening an object -/

/-- A registered object is not dirty yet. -/
theorem getObjectInfo_still (objid : ℕ) (ct : Container) :
    Ends (getObjectInfo objid) ct (fun _ ct' => Still ct ct') fun _ _ => True := by
  unfold getObjectInfo
  rw [ends_bind, ends_get]
  dsimp only
  split_ifs
  · trivial
  · rw [ends_modify]
    refine ⟨rfl, rfl, fun _ => Iff.rfl, fun k => ⟨?_, ?_⟩⟩
    · rintro ⟨o, ho, hid, hd⟩
      rcases List.mem_append.mp ho with ho | ho
      · exact ⟨o, (List.takeWhile_sublist _).subset ho, hid, hd⟩
      · rcases List.mem_cons.mp ho with rfl | ho
        · cases hd
        · exact ⟨o, (List.dropWhile_sublist _).subset ho, hid, hd⟩
    · rintro ⟨o, ho, hid, hd⟩
      rw [← List.takeWhile_append_dropWhile (p := fun x : ObjectInfo => decide (x.objid < objid))
        (l := ct.objInfoList)] at ho
      refine ⟨o, ?_, hid, hd⟩
      rcases List.mem_append.mp ho with ho | ho
      · exact List.mem_append_left _ ho
      · exact List.mem_append_right _ (List.mem_cons_of_mem _ ho)

theorem getObjectHandle_still (objid : ℕ) (ct : Container) :
    Ends (getObjectHandle objid) ct (fun _ ct' => Still ct ct') fun _ _ => True := by
  unfold getObjectHandle
  rw [ends_bind, ends_get, ends_bind, ends_modify]
  have hnext : Still ct { ct with nextHandle := ct.nextHandle + 1 } := .of_trees rfl rfl
  exact (modifyInfo_still objid (f := fun o =>
    { o with objHndList := o.objHndList ++ [ct.nextHandle], refCnt := uint32 (o.refCnt + 1) })
    (fun _ => ⟨rfl, rfl⟩) _).seq fun _ _ hstill => hnext.trans hstill

/-- The cache of an inode becomes clean, which loses nothing if the inode does not wait. -/
theorem openObject_still (h : Coherent closing skip ct) (hflag : reservedObjId ≤ objid ∨ ∀ p, ¬ Flagged ct p)
    (hno : ¬ Waits ct n) : Ends (openObject objid n) ct (fun _ ct' => Still ct ct') fun _ _ => True := by
  unfold openObject recoverObjInode
  refine Ends.seq' ((getObjectInfo_coherent h hflag).and (getObjectInfo_still objid ct)) (fun _ ct₁ hpost => ?_)
    fun _ _ _ => trivial
  obtain ⟨⟨h₁, -⟩, hstill₁⟩ := hpost
  rw [bind_assoc]
  refine (indexBlockRead2_still h₁ objid n).seq fun p ct₂ hpost => ?_
  obtain ⟨hstill₂, c, hc, rfl⟩ := hpost
  have hstill₃ : Still ct (ct₂.mapInfo objid fun o => { o with inodeCache := p, inodeNo := c.vbn, rootVbn := c.vbn }) :=
    (hstill₁.trans hstill₂).trans (.mapInfo (by exact fun _ => ⟨rfl, rfl⟩) ct₂ objid)
  rw [← hstill₃.waits] at hno
  unfold modifyInfo
  rw [bind_assoc, ends_bind, ends_modify]
  refine (setCacheState_spec p .clean _).seq fun _ ct₃ hpost => ?_
  obtain ⟨c', hc', rfl⟩ := hpost
  obtain rfl := Option.some.inj (hc.symm.trans hc')
  exact (getObjectHandle_still objid _).mono
    (fun _ _ hstill => (hstill₃.trans (.setClean hc hno)).trans hstill) fun _ _ _ => trivial

/-- A dirty cache has the inode of the object. -/
def InodeWaits (ct : Container) (objid : ℕ) : Prop :=
  ∃ p ∈ ct.metadataCache, ∃ c, ct.heap p = some c ∧ c.state = .dirty ∧ ct.use c.vbn = some (.inode objid)

/-- An object that is not open yet is opened only when its inode does not wait. -/
theorem ofsOpenObject_still (h : Coherent closing skip ct) (hs : ∀ k, ¬ skip k) (hr : Registry ct.view l)
    (hobjid : objid < 2 ^ 64)
    (hno : (∀ o ∈ ct.objInfoList, o.objid ≠ objid) → ¬ InodeWaits ct objid)
    (search : List ℕ) : Ends (ofsOpenObject objid search) ct (fun _ ct' => Still ct ct') fun _ _ => True := by
  unfold ofsOpenObject
  rw [ends_bind, ends_get]
  split_ifs with hany
  · exact getObjectHandle_still objid ct
  · simp only [List.any_eq_true, decide_eq_true_eq, not_exists, not_and] at hany
    refine Ends.seq' ((readIdBlocks_still h (fun k _ => hs k) search).and (readIdBlocks_keeps search ct))
      (fun _ ct₁ hpost => ?_) fun _ _ _ => trivial
    obtain ⟨⟨h₁, hstill⟩, hview⟩ := hpost
    rw [← hview] at hr
    have hclosed : ∀ o ∈ ct₁.view.objs, o.objid ≠ objid := by
      rw [hview]
      exact List.forall_mem_map.mpr hany
    refine (idSearch_spec hr.tree hr.ids (osBstrToU64_u64Bytes hobjid)).seq' (fun value ct₂ hpost => ?_)
      fun _ _ _ => trivial
    obtain ⟨rfl, n, hn, rfl⟩ := hpost
    rw [osBstrToU64_osU64ToBstr (hr.ids.bound _ hn).2, ends_bind, ends_fromExcept_ok]
    have huse : ct.use n = some (.inode objid) := by
      rw [← hstill.use]
      exact hr.closed _ hn hclosed
    have hno₁ : ¬ Waits ct₂ n := by
      rw [hstill.waits]
      rintro ⟨p, hp, c, hc, rfl, hd⟩
      exact hno hany ⟨p, hp, c, hc, hd, huse⟩
    exact (openObject_still h₁ (.inl (hr.user _ hn).1) hno₁).mono (fun _ _ hstill' => hstill.trans hstill')
      fun _ _ _ => trivial

/-! ## Creating an object -/

/-- The inode of a new object waits. -/
theorem createObjectAtInode_retains (h : Coherent closing skip ct) (hk : reservedObjId ≤ objid) (n : ℕ) :
    Ends (createObjectAtInode objid n) ct (fun _ ct' => Retains ct ct' ∧ Kept ct' n) fun _ _ => True := by
  unfold createObjectAtInode
  refine Ends.seq' ((getObjectInfo_coherent h (.inl hk)).and (getObjectInfo_still objid ct)) (fun _ ct₁ hpost => ?_)
    fun _ _ _ => trivial
  obtain ⟨⟨h₁, -⟩, hstill₁⟩ := hpost
  refine (allocObjCache_still h₁.objids objid n).seq fun p ct₂ hpost => ?_
  obtain ⟨hstill₂, hp, hc⟩ := hpost
  have hstill₃ : Still ct (ct₂.mapInfo objid fun o => { o with inodeCache := p, inodeNo := n, rootVbn := n }) :=
    (hstill₁.trans hstill₂).trans (.mapInfo (by exact fun _ => ⟨rfl, rfl⟩) ct₂ objid)
  unfold modifyInfo
  rw [ends_bind, ends_modify]
  refine (setCacheDirty_retains (by exact hp)).seq fun _ ct₄ hpost => ?_
  obtain ⟨hret, hwaits⟩ := hpost
  replace hwaits := hwaits _ hc
  rw [ends_bind, ends_modify]
  have hret₅ : Retains ct₄ (ct₄.mapInfo objid fun o => { o with rootState := .dirty }) :=
    ⟨fun _ _ _ hm => ⟨hm, id⟩, (DirtyRoot.setDirty ct₄ objid).1⟩
  have hkept₅ : Kept (ct₄.mapInfo objid fun o => { o with rootState := .dirty }) n := .inr hwaits
  refine (getObjectHandle_still objid _).mono (fun _ ct₆ hstill₆ => ⟨?_, ?_⟩) fun _ _ _ => trivial
  · exact ((hstill₃.retains.trans hret).trans hret₅).trans hstill₆.retains
  · exact hstill₆.kept.mpr hkept₅

theorem createObject_inodes (h : Coherent closing skip ct) (hs : ∀ k, ¬ skip k) (hi : Inodes ct)
    (hk : reservedObjId ≤ objid) (inodeNo : ℕ) (ops : SystemOps) :
    Ends (createObject objid inodeNo ops) ct (fun _ ct' => Inodes ct') fun _ _ => True := by
  unfold createObject
  refine (runSystemOps_retains h (fun k _ => hs k) ops).seq fun _ ct₁ hpost => ?_
  obtain ⟨h₁, hret₁⟩ := hpost
  have hi₁ := hret₁.inodes hi
  refine (allocBlock_use inodeNo _ ct₁).seq fun _ ct₂ hpost => ?_
  obtain ⟨hfree, rfl⟩ := hpost
  refine (createObjectAtInode_retains (h₁.take _ hfree) hk inodeNo).mono (fun _ ct₃ hpost => ?_) fun _ _ _ => trivial
  obtain ⟨hret₃, hkept⟩ := hpost
  intro n k hk hn
  by_cases hno : n = inodeNo
  · exact .inl (hno ▸ hkept)
  · -- the other blocks are in use as before
    obtain ⟨hn₂, hret₂⟩ := hret₃.inode n k hk hn
    have hn₁ : ct₁.use n = some (.inode k) := (Function.update_of_ne hno _ _).symm.trans hn₂
    exact (hi₁ n k hk hn₁).imp (fun hkept₁ => hret₂ (hkept₁.take _ hno)) (hret₃.roots k)

theorem ofsCreateObject_inodes (h : Coherent closing skip ct) (hs : ∀ k, ¬ skip k) (hi : Inodes ct)
    (objid inodeNo : ℕ) (search : List ℕ) (alloc insert : SystemOps) :
    Ends (ofsCreateObject objid inodeNo search alloc insert) ct (fun _ ct' => Inodes ct') fun _ _ => True := by
  unfold ofsCreateObject
  rw [ends_bind, ends_assertThat]
  refine ⟨fun _ => ?_, fun _ => trivial⟩
  split_ifs with hreserved
  · trivial
  · rw [ends_bind, ends_get]
    split_ifs
    · trivial
    · refine (readIdBlocks_still h (fun k _ => hs k) search).seq fun _ ct₁ hpost => ?_
      obtain ⟨h₁, hstill₁⟩ := hpost
      refine ((idSearch_keeps id (u64Bytes objid)).codeOf ct₁).seq' (fun r ct₂ heq => ?_) fun _ _ _ => trivial
      obtain rfl : ct₂ = ct₁ := heq
      cases r with
      | ok value => trivial
      | error e =>
        dsimp only
        split_ifs
        · trivial
        · have hk := not_lt.mp hreserved
          refine Ends.seq' ((createObject_coherent h₁ (fun k _ => hs k) (.inl hk) inodeNo alloc).and
            (createObject_inodes h₁ hs (hstill₁.retains.inodes hi) hk inodeNo alloc)) (fun hnd ct₃ hpost => ?_)
              fun _ _ _ => trivial
          obtain ⟨h₃, hi₃⟩ := hpost
          refine (runSystemOps_retains h₃ (fun k _ => hs k) insert).seq fun _ ct₄ hpost => ?_
          refine (getInfo_spec objid ct₄).seq fun o ct₅ heq => ?_
          obtain ⟨rfl, -, -⟩ := heq
          have hinsert : Keeps (fun ct => (ct.trees, ct.onDisk)) (idInsert (osU64ToBstr objid) (osU64ToBstr o.inodeNo)) :=
            idInsert_keeps (fun _ _ => rfl) _ _
          refine (Still.keeps hinsert ct₅).seq' (fun _ ct₆ hstill₆ => ?_) fun _ _ _ => trivial
          exact (hpost.2.trans hstill₆.retains).inodes hi₃

/-! ## Sessions -/

/-- No object is opened whose inode waits to be written. -/
def OpensSettled (s : Session) : Call → Prop
  | .open objid _ => (∀ o ∈ s.ct.objInfoList, o.objid ≠ objid) → ¬ InodeWaits s.ct objid
  | _ => True

instance (ct : Container) (objid : ℕ) : Decidable (InodeWaits ct objid) :=
  inferInstanceAs (Decidable (∃ p ∈ ct.metadataCache, ∃ c ∈ ct.heap p, c.state = .dirty ∧
    ct.use c.vbn = some (.inode objid)))

instance (s : Session) (c : Call) : Decidable (OpensSettled s c) :=
  match c with
  | .open objid _ =>
    inferInstanceAs (Decidable ((∀ o ∈ s.ct.objInfoList, o.objid ≠ objid) → ¬ InodeWaits s.ct objid))
  | .create .. | .close .. | .index .. | .commit .. => .isTrue trivial

theorem openSystemObjects_still {ids : List (ℕ × ℕ)} (hct : ct.Stored ids) :
    Ends openSystemObjects ct (fun _ ct' => Still ct ct') fun _ _ => True := by
  have hno : ∀ n, ¬ Waits ct n := by
    rintro n ⟨p, hp, -⟩
    rw [hct.metadataCache] at hp
    cases hp
  have hopen : ∀ {ct₁ : Container} {objid n : ℕ}, Clear ct₁ → Still ct ct₁ →
      Ends (openObject objid n) ct₁ (fun _ ct' => Still ct ct') fun _ _ => True := fun hclear hstill =>
    (openObject_still hclear.coherent (.inr hclear.unflagged) fun hw => hno _ ((hstill.waits _).mp hw)).mono
      (fun _ _ hstill' => hstill.trans hstill') fun _ _ _ => trivial
  unfold openSystemObjects
  rw [ends_bind, ends_get]
  have h := hct.toBlank.clear
  refine Ends.seq' ((h.open hct.base).and (hopen h (.refl ct))) (fun base ct₁ hpost => ?_) fun _ _ _ => trivial
  obtain ⟨⟨h₁, huse₁, hspace₁, hobjid₁⟩, hstill₁⟩ := hpost
  have hspace : ct₁.use ct₁.spaceInodeNo = some (.inode spaceObjId) := by
    rw [huse₁, hspace₁]
    exact hct.space
  rw [ends_bind, ends_get]
  refine Ends.seq' ((h₁.open hspace).and (hopen h₁ hstill₁)) (fun space ct₂ hpost => ?_) fun _ _ _ => trivial
  obtain ⟨⟨h₂, -⟩, hstill₂⟩ := hpost
  rw [ends_bind, ends_get]
  exact (hopen h₂ hstill₂).seq fun objid ct₃ hstill₃ => hstill₃

theorem Session.Start.inodes {s : Session} (h : s.Start) : Inodes s.ct := by
  cases h with
  | create hct hrun =>
    -- there are no user objects
    obtain ⟨-, hr, hheld⟩ := (ends_of_ok hrun).mp (createSystemObjects_spec hct _ _)
    intro n k hk hn
    rcases hr.inode n k hk hn with ⟨o, ho, rfl, -⟩ | ⟨-, hmem⟩
    · obtain ⟨hnd, hmem⟩ := hheld.owned o ho
      have hid : o.objid ∈ [baseObjId, spaceObjId, objidObjId] := (List.of_mem_zip hmem).1
      have hsystem : ∀ k ∈ [baseObjId, spaceObjId, objidObjId], k < reservedObjId := by decide
      exact absurd hk (not_le.mpr (hsystem _ hid))
    · cases hmem
  | «open» hct hrun =>
    have hstill := (ends_of_ok hrun).mp (openSystemObjects_still hct)
    intro n k _ hn
    rw [hstill.use] at hn
    exact .inl (hstill.kept.mpr (.inl (hct.onDisk n _ hn)))

theorem Session.Reached.mono {ok ok' : Session → Call → Prop} {s : Session} (hs : s.Reached ok)
    (hok : ∀ s c, ok s c → ok' s c) : s.Reached ok' := by
  induction hs with
  | start h => exact .start h
  | step _ hc hstep ih => exact ih.step (hok _ _ hc) hstep

theorem Session.Step.inodes {s s' : Session} {c : Call} (hstep : s.Step c s') (hs : s.Registered)
    (h : Coherent (fun _ => False) (fun _ => False) s.ct) (hi : Inodes s.ct) (hok : OpensSettled s c) :
    Inodes s'.ct := by
  obtain ⟨l, hr⟩ := hs
  cases hstep with
  | create hobjid hrun => exact (ends_of_ok hrun).mp (ofsCreateObject_inodes h (fun _ => id) hi _ _ _ _ _)
  | «open» hobjid hrun =>
    exact ((ends_of_ok hrun).mp (ofsOpenObject_still h (fun _ => id) hr hobjid hok _)).retains.inodes hi
  | close hheld hrun => exact (ends_of_ok hrun).mp (ofsCloseObject_inodes h (fun _ => id) hr hi _ _)
  | index hrun => exact (ends_of_ok hrun).mp (runOp_inodes h id hi _)
  | commit hrun =>
    have hdisk := (ends_of_ok hrun).mp (commitContainerModification_inodes h (fun _ => id) ⟨l, hr⟩ hi _)
    exact fun n k hk hn => .inl (.inl (hdisk n k hk hn))

/-- No inode is lost in a run that opens no object whose inode waits. -/
theorem Session.Reached.inodes {s : Session} (hs : s.Reached fun s c => OpensSettled s c ∧ CommitsUnflagged s c) :
    s.Registered ∧ Coherent (fun _ => False) (fun _ => False) s.ct ∧ Inodes s.ct := by
  induction hs with
  | start h => exact ⟨h.registered, h.clear.coherent, h.inodes⟩
  | step _ hok hstep ih =>
    obtain ⟨hr, h, hi⟩ := ih
    exact ⟨hstep.registered hr, hstep.coherent hr h hok.2, hstep.inodes hr h hi hok.1⟩

end IndexFs.Object
