import IndexFs.Object.CoherentRuns

/-!
# Where the inodes are

The objid tree names the block that is in use for the inode of an object. The present
content of that block is on the disk, or in a dirty cache of the container, which the
next flush writes (`Kept`); or the root block of the object is dirty, so that its inode
will be marked when it is validated (`DirtyRoot`).

* `Still`: a change that leaves the blocks, their content and what waits as they are.
* `Retains`: a change that loses no inode.
* `runOp_inodes`: the operations on the tree of an object lose none.
-/

namespace IndexFs.Object

open IndexFs.Collate IndexFs.Space

variable {ct ct' ct'' : Container} {closing skip : ℕ → Prop} {l : List (ℕ × ℕ)} {objid n k : ℕ} {p : CachePtr}
  {c : BlockCache}

/-! ## Inodes on the disk and on their way -/

/-- A dirty cache of the container has the block: the next flush writes it. -/
def Waits (ct : Container) (n : ℕ) : Prop :=
  ∃ p ∈ ct.metadataCache, ∃ c, ct.heap p = some c ∧ c.vbn = n ∧ c.state = .dirty

/-- The present content of the block is on the disk or waits to be written. -/
def Kept (ct : Container) (n : ℕ) : Prop := ct.onDisk n = true ∨ Waits ct n

instance (ct : Container) (n : ℕ) : Decidable (Waits ct n) :=
  inferInstanceAs (Decidable (∃ p ∈ ct.metadataCache, ∃ c ∈ ct.heap p, c.vbn = n ∧ c.state = .dirty))

instance (ct : Container) (n : ℕ) : Decidable (Kept ct n) :=
  inferInstanceAs (Decidable (ct.onDisk n = true ∨ Waits ct n))

/-- The object is open and its root block is dirty. -/
def DirtyRoot (ct : Container) (objid : ℕ) : Prop :=
  ∃ o ∈ ct.objInfoList, o.objid = objid ∧ o.rootState = .dirty

/-- No inode of a user object is lost. -/
def Inodes (ct : Container) : Prop :=
  ∀ n k, reservedObjId ≤ k → ct.use n = some (.inode k) → Kept ct n ∨ DirtyRoot ct k

/-- The blocks, their content and what waits for the flush stay as they are. -/
structure Still (ct ct' : Container) : Prop where
  use : ct'.use = ct.use
  onDisk : ct'.onDisk = ct.onDisk
  waits : ∀ n, Waits ct' n ↔ Waits ct n
  roots : ∀ k, DirtyRoot ct' k ↔ DirtyRoot ct k

theorem Still.refl (ct : Container) : Still ct ct := ⟨rfl, rfl, fun _ => Iff.rfl, fun _ => Iff.rfl⟩

theorem Still.trans (h : Still ct ct') (h' : Still ct' ct'') : Still ct ct'' where
  use := h'.use.trans h.use
  onDisk := h'.onDisk.trans h.onDisk
  waits n := (h'.waits n).trans (h.waits n)
  roots k := (h'.roots k).trans (h.roots k)

/-- The inodes of user objects are some of those that there were, and no one of these is lost. -/
structure Retains (ct ct' : Container) : Prop where
  inode : ∀ n k, reservedObjId ≤ k → ct'.use n = some (.inode k) →
    ct.use n = some (.inode k) ∧ (Kept ct n → Kept ct' n)
  roots : ∀ k, DirtyRoot ct k → DirtyRoot ct' k

theorem Retains.refl (ct : Container) : Retains ct ct := ⟨fun _ _ _ h => ⟨h, id⟩, fun _ h => h⟩

theorem Retains.trans (h : Retains ct ct') (h' : Retains ct' ct'') : Retains ct ct'' where
  inode n k hk hn := by
    obtain ⟨hn', hkept'⟩ := h'.inode n k hk hn
    obtain ⟨hn, hkept⟩ := h.inode n k hk hn'
    exact ⟨hn, hkept' ∘ hkept⟩
  roots k hd := h'.roots k (h.roots k hd)

theorem Still.kept (h : Still ct ct') : Kept ct' n ↔ Kept ct n := by
  unfold Kept
  rw [h.onDisk, h.waits]

theorem Still.retains (h : Still ct ct') : Retains ct ct' :=
  ⟨fun _ _ _ hn => ⟨by rwa [h.use] at hn, h.kept.mpr⟩, fun k => (h.roots k).mpr⟩

theorem Retains.inodes (h : Retains ct ct') (hi : Inodes ct) : Inodes ct' := by
  intro n k hk hn
  obtain ⟨hn, hkept⟩ := h.inode n k hk hn
  exact (hi n k hk hn).imp hkept (h.roots k)

/-! ## Changes of objects and caches -/

theorem dirtyRoot_map {f : ObjectInfo → ObjectInfo}
    (hf : ∀ o, (f o).objid = o.objid ∧ (f o).rootState = o.rootState) {objs : List ObjectInfo} (k : ℕ) :
    (∃ o ∈ objs.map f, o.objid = k ∧ o.rootState = .dirty) ↔ ∃ o ∈ objs, o.objid = k ∧ o.rootState = .dirty := by
  simp only [List.mem_map, exists_exists_and_eq_and, (hf _).1, (hf _).2]

theorem dirtyRoot_mapInfo {f : ObjectInfo → ObjectInfo}
    (hf : ∀ o, (f o).objid = o.objid ∧ (f o).rootState = o.rootState) (ct : Container) (objid k : ℕ) :
    DirtyRoot (ct.mapInfo objid f) k ↔ DirtyRoot ct k := by
  refine dirtyRoot_map (fun o => ?_) k
  unfold atObj
  split_ifs
  · exact hf o
  · exact ⟨rfl, rfl⟩

/-- An object changes elsewhere than in its root. -/
theorem Still.mapInfo {f : ObjectInfo → ObjectInfo} (hf : ∀ o, (f o).objid = o.objid ∧ (f o).rootState = o.rootState)
    (ct : Container) (objid : ℕ) : Still ct (ct.mapInfo objid f) :=
  ⟨rfl, rfl, fun _ => Iff.rfl, dirtyRoot_mapInfo hf ct objid⟩

theorem modifyInfo_still (objid : ℕ) {f : ObjectInfo → ObjectInfo}
    (hf : ∀ o, (f o).objid = o.objid ∧ (f o).rootState = o.rootState) (ct : Container) :
    Ends (modifyInfo objid f) ct (fun _ ct' => Still ct ct') fun _ _ => True := by
  unfold modifyInfo
  rw [ends_modify]
  exact .mapInfo hf ct objid

/-- What leaves the trees of caches and the disk alone. -/
theorem Still.of_trees (htrees : ct'.trees = ct.trees) (hdisk : ct'.onDisk = ct.onDisk) : Still ct ct' := by
  obtain ⟨hheap, hmeta, hobjs, huse⟩ : ct'.heap = ct.heap ∧ ct'.metadataCache = ct.metadataCache ∧
      ct'.objInfoList = ct.objInfoList ∧ ct'.use = ct.use := by
    simpa [Container.trees] using htrees
  refine ⟨huse, hdisk, fun n => ?_, fun k => ?_⟩
  · unfold Waits
    rw [hheap, hmeta]
  · unfold DirtyRoot
    rw [hobjs]

/-- The caches other than `p` stay, and with them the blocks other than that of `p`. -/
theorem Kept.others (hkept : Kept ct n) (hheap : ∀ q, q ≠ p → ct'.heap q = ct.heap q)
    (hmeta : ∀ q ∈ ct.metadataCache, q ≠ p → q ∈ ct'.metadataCache) (hdisk : ct'.onDisk n = ct.onDisk n)
    (hp : ∀ c, ct.heap p = some c → c.state = .dirty → c.vbn ≠ n) : Kept ct' n := by
  rcases hkept with hn | ⟨q, hq, c, hc, hvbn, hd⟩
  · exact .inl (hdisk.trans hn)
  · have hqp : q ≠ p := by
      rintro rfl
      exact hp c hc hd hvbn
    exact .inr ⟨q, hmeta q hq hqp, c, (hheap q hqp).trans hc, hvbn, hd⟩

/-- A cache of the container becomes dirty. -/
theorem setCacheDirty_retains (hp : p ∈ ct.metadataCache) :
    Ends (setCacheState p .dirty) ct
      (fun _ ct' => Retains ct ct' ∧ ∀ c, ct.heap p = some c → Waits ct' c.vbn) fun _ _ => True := by
  refine (setCacheState_spec p .dirty ct).mono (fun _ ct' hpost => ?_) fun _ _ _ => trivial
  obtain ⟨c, hc, rfl⟩ := hpost
  have hwaits : Waits (ct.setState p c .dirty) c.vbn := ⟨p, hp, _, Function.update_self _ _ _, rfl, rfl⟩
  refine ⟨⟨fun n k _ hn => ⟨hn, fun hkept => ?_⟩, fun _ h => h⟩, fun c' hc' => ?_⟩
  · by_cases hvbn : c.vbn = n
    · exact .inr (hvbn ▸ hwaits)
    · refine hkept.others (fun q hq => Function.update_of_ne hq _ _) (fun q hq _ => hq) ?_ fun c' hc' _ => ?_
      · exact Function.update_of_ne (Ne.symm hvbn) _ _
      · obtain rfl : c = c' := Option.some.inj (hc.symm.trans hc')
        exact hvbn
  · obtain rfl : c = c' := Option.some.inj (hc.symm.trans hc')
    exact hwaits

/-- A cache whose block does not wait becomes clean. -/
theorem Still.setClean (hc : ct.heap p = some c) (hno : ¬ Waits ct c.vbn) : Still ct (ct.setState p c .clean) := by
  refine ⟨rfl, rfl, fun n => ⟨?_, ?_⟩, fun _ => Iff.rfl⟩
  · rintro ⟨q, hq, c', hc', hvbn, hd⟩
    change Function.update ct.heap p _ q = _ at hc'
    by_cases hqp : q = p
    · rw [hqp, Function.update_self] at hc'
      cases hc'
      cases hd
    · rw [Function.update_of_ne hqp] at hc'
      exact ⟨q, hq, c', hc', hvbn, hd⟩
  · rintro ⟨q, hq, c', hc', rfl, hd⟩
    have hqp : q ≠ p := by
      rintro rfl
      obtain rfl : c = c' := Option.some.inj (hc.symm.trans hc')
      exact hno ⟨q, hq, c, hc, rfl, hd⟩
    exact ⟨q, hq, c', (Function.update_of_ne hqp _ _).trans hc', rfl, hd⟩

/-- A cache keeps its state when it gets its flag. -/
theorem Retains.setFlush (hc : ct.heap p = some c) :
    Retains ct { ct with heap := Function.update ct.heap p (some { c with flush := true }) } := by
  refine ⟨fun n k _ hn => ⟨hn, Or.imp_right ?_⟩, fun _ hk => hk⟩
  rintro ⟨q, hq, c', hc', hvbn, hd⟩
  by_cases hqp : q = p
  · rw [hqp] at hq hc'
    obtain rfl := Option.some.inj (hc.symm.trans hc')
    exact ⟨p, hq, _, Function.update_self _ _ _, hvbn, hd⟩
  · exact ⟨q, hq, c', (Function.update_of_ne hqp _ _).trans hc', hvbn, hd⟩

/-- A new cache is empty. -/
theorem Still.newCache (hp : ct.nextCache ∉ ct.metadataCache) (objid vbn : ℕ) : Still ct (ct.newCache objid vbn) := by
  have hold : ∀ q ∈ ct.metadataCache, (ct.newCache objid vbn).heap q = ct.heap q := fun q hq =>
    Function.update_of_ne (ne_of_mem_of_not_mem hq hp) _ _
  refine ⟨rfl, rfl, fun n => ⟨?_, ?_⟩, dirtyRoot_mapInfo (by exact fun _ => ⟨rfl, rfl⟩) _ objid⟩
  · rintro ⟨q, hq, c', hc', hvbn, hd⟩
    rcases List.mem_append.mp hq with hq | hq
    · exact ⟨q, hq, c', (hold q hq).symm.trans hc', hvbn, hd⟩
    · rw [List.mem_singleton.mp hq, newCache_heap] at hc'
      cases hc'
      cases hd
  · rintro ⟨q, hq, c', hc', hvbn, hd⟩
    exact ⟨q, List.mem_append_left _ hq, c', (hold q hq).trans hc', hvbn, hd⟩

theorem allocObjCache_still (hids : (ct.objInfoList.map ObjectInfo.objid).Nodup) (objid vbn : ℕ) :
    Ends (allocObjCache objid vbn) ct
      (fun p ct' => Still ct ct' ∧ p ∈ ct'.metadataCache ∧
        ct'.heap p = some { vbn, state := .empty, flush := false }) fun _ _ => True := by
  refine (allocObjCache_spec hids objid vbn).mono (fun p ct' hpost => ?_) fun _ _ _ => trivial
  obtain ⟨rfl, rfl, hp, -⟩ := hpost
  exact ⟨.newCache hp objid vbn, List.mem_append_right _ (List.mem_singleton.mpr rfl), newCache_heap ..⟩

/-- A block is read into a cache or found in one. -/
theorem indexBlockRead2_still (h : Coherent closing skip ct) (objid vbn : ℕ) :
    Ends (indexBlockRead2 objid vbn) ct (fun p ct' => Still ct ct' ∧ ∃ c, ct'.heap p = some c ∧ c.vbn = vbn)
      fun _ _ => True := by
  refine (indexBlockRead2_spec h.objids objid vbn).mono (fun p ct' hpost => ?_) fun _ _ _ => trivial
  obtain ⟨o, -, rfl, ⟨rfl, -, hc⟩ | ⟨rfl, -, hc, -⟩ | ⟨rfl, rfl, hp, hnew⟩⟩ := hpost
  · exact ⟨.refl _, hc⟩
  · exact ⟨.mapInfo (by exact fun _ => ⟨rfl, rfl⟩) ct o.objid, hc⟩
  · have hstill := Still.newCache hp o.objid vbn
    -- the block is in no other cache, and this one is empty
    have hno : ¬ Waits (ct.newCache o.objid vbn) vbn := by
      rw [hstill.waits]
      rintro ⟨q, hq, c', hc', hvbn, -⟩
      obtain ⟨c'', hc'', hne⟩ := hnew q hq
      obtain rfl : c' = c'' := Option.some.inj (hc'.symm.trans hc'')
      exact hne hvbn
    exact ⟨hstill.trans (.setClean (newCache_heap ..) hno), _, Function.update_self _ _ _, rfl⟩

/-! ## Operations on the tree of an object -/

/-- The number of a cache in both trees changes; the blocks of the others stay where they are. -/
theorem Kept.changeVbn (hkept : Kept ct n) (objid : ℕ) {newVbn : ℕ} (hc : ct.heap p = some c) (hne : c.vbn ≠ n) :
    Kept (ct.changeVbn objid p c newVbn) n := by
  refine hkept.others (fun q hq => Function.update_of_ne hq _ _) (fun q hq hqp => ?_) rfl fun c' hc' _ => ?_
  · exact List.mem_append_left _ ((List.mem_erase_of_ne hqp).mpr hq)
  · obtain rfl := Option.some.inj (hc.symm.trans hc')
    exact hne

theorem dirtyRoot_changeVbn (ct : Container) (objid : ℕ) (p : CachePtr) (c : BlockCache) (newVbn k : ℕ) :
    DirtyRoot (ct.changeVbn objid p c newVbn) k ↔ DirtyRoot ct k := by
  have hadd : ∀ ct' : Container, DirtyRoot (ct'.addBoth objid p) k ↔ DirtyRoot ct' k := fun ct' =>
    dirtyRoot_mapInfo (f := fun o => { o with caches := o.caches ++ [p] }) (fun _ => ⟨rfl, rfl⟩) ct' objid k
  have hdrop : DirtyRoot (ct.dropBoth objid p) k ↔ DirtyRoot ct k :=
    dirtyRoot_mapInfo (f := fun o => { o with caches := o.caches.erase p }) (fun _ => ⟨rfl, rfl⟩) ct objid k
  exact (hadd _).trans hdrop

/-- The root block of an object becomes dirty. -/
theorem DirtyRoot.setDirty (ct : Container) (objid : ℕ) :
    (∀ k, DirtyRoot ct k → DirtyRoot (ct.mapInfo objid fun o => { o with rootState := .dirty }) k) ∧
      ((∃ o ∈ ct.objInfoList, o.objid = objid) →
        DirtyRoot (ct.mapInfo objid fun o => { o with rootState := .dirty }) objid) := by
  refine ⟨fun k hd => ?_, fun hopen => ?_⟩
  · obtain ⟨o, ho, hid, hd⟩ := hd
    refine ⟨_, List.mem_map_of_mem ho, ?_⟩
    unfold atObj
    split_ifs
    · exact ⟨hid, rfl⟩
    · exact ⟨hid, hd⟩
  · obtain ⟨o, ho, hid⟩ := hopen
    exact ⟨_, List.mem_map_of_mem ho, by rw [atObj, if_pos hid]; exact ⟨hid, rfl⟩⟩

/-- Blocks that come into use are not on the disk yet. -/
theorem Kept.take (hkept : Kept ct n) (u : BlockUse) {newVbn : ℕ} (hne : n ≠ newVbn) : Kept (ct.take newVbn u) n := by
  refine hkept.imp_left fun hn => ?_
  exact (Function.update_of_ne hne _ _).trans hn

/-- A block is allocated for a tree. -/
theorem Retains.take_index (ct : Container) (objid vbn : ℕ) : Retains ct (ct.take vbn (.index objid)) := by
  refine ⟨fun n k _ hn => ?_, fun k hd => hd⟩
  have hn' : Function.update ct.use vbn (some (.index objid)) n = some (.inode k) := hn
  have hne : n ≠ vbn := by
    rintro rfl
    simp at hn'
  rw [Function.update_of_ne hne] at hn'
  exact ⟨hn', fun hk => hk.take _ hne⟩

/-- A block that is in use for an inode is not one that was just allocated for a tree, or freed. -/
theorem use_inode {use : ℕ → Option BlockUse} {newVbn vbn : ℕ}
    (hn : Function.update (Function.update use newVbn (some (.index objid))) vbn none n = some (.inode k)) :
    n ≠ vbn ∧ n ≠ newVbn ∧ use n = some (.inode k) := by
  have h1 : n ≠ vbn := by
    rintro rfl
    simp at hn
  rw [Function.update_of_ne h1] at hn
  have h2 : n ≠ newVbn := by
    rintro rfl
    simp at hn
  rw [Function.update_of_ne h2] at hn
  exact ⟨h1, h2, hn⟩

theorem Kept.moveRoot (hkept : Kept ct n) {o : ObjectInfo} {newVbn : ℕ} (hc : ct.heap o.inodeCache = some c)
    (hne : c.vbn ≠ n) (hnew : n ≠ newVbn) : Kept (ct.moveRoot o c newVbn) n := by
  have hmap : Kept ((ct.take newVbn (.inode o.objid)).mapInfo o.objid fun o => { o with rootVbn := newVbn }) n :=
    hkept.take (.inode o.objid) hnew
  exact hmap.changeVbn o.objid hc hne

theorem dirtyRoot_moveRoot (ct : Container) (o : ObjectInfo) (c : BlockCache) (newVbn k : ℕ) :
    DirtyRoot (ct.moveRoot o c newVbn) k ↔ DirtyRoot ct k := by
  have hmap : DirtyRoot ((ct.take newVbn (.inode o.objid)).mapInfo o.objid fun o => { o with rootVbn := newVbn }) k ↔
      DirtyRoot ct k :=
    dirtyRoot_mapInfo (f := fun o => { o with rootVbn := newVbn }) (fun _ => ⟨rfl, rfl⟩) _ o.objid k
  exact (dirtyRoot_changeVbn _ o.objid o.inodeCache c newVbn k).trans hmap

theorem mem_mapInfo {f : ObjectInfo → ObjectInfo} (hf : ∀ o, (f o).objid = o.objid)
    (hopen : ∃ o ∈ ct.objInfoList, o.objid = k) : ∃ o ∈ (ct.mapInfo objid f).objInfoList, o.objid = k := by
  obtain ⟨o, ho, hid⟩ := hopen
  exact ⟨_, List.mem_map_of_mem ho, (atObj_objid hf o).trans hid⟩

theorem mem_moveRoot {o : ObjectInfo} (ho : o ∈ ct.objInfoList) (c : BlockCache) (newVbn : ℕ) :
    ∃ o' ∈ (ct.moveRoot o c newVbn).objInfoList, o'.objid = o.objid := by
  refine mem_mapInfo (fun _ => rfl) (mem_mapInfo (fun _ => rfl) (mem_mapInfo (fun _ => rfl) ?_))
  exact ⟨o, ho, rfl⟩

/-- The root block of an object becomes dirty: the inodes of the others are kept. -/
theorem setRootDirty_inodes (h : Coherent closing skip ct) (hs : ¬ skip objid) (newVbn : ℕ) :
    Ends (runOp objid (.setRootDirty newVbn)) ct
      (fun _ ct' => (∀ n k, ct'.use n = some (.inode k) →
          ct.use n = some (.inode k) ∧ (Kept ct n → Kept ct' n) ∨ k = objid ∧ DirtyRoot ct' objid) ∧
        ∀ k, DirtyRoot ct k → DirtyRoot ct' k) fun _ _ => True := by
  refine (setRootDirty_spec h.objids objid newVbn).mono (fun _ ct' hpost => ?_) fun _ _ _ => trivial
  obtain rfl | ⟨o, ho, rfl, hfree, c, hc, rfl⟩ := hpost
  · exact ⟨fun _ _ hn => .inl ⟨hn, id⟩, fun _ hd => hd⟩
  · obtain ⟨-, ⟨c', hc', hvbn⟩, hroot⟩ := h.inode o ho hs
    obtain rfl : c = c' := Option.some.inj (hc.symm.trans hc')
    obtain ⟨hroots, hopen⟩ := DirtyRoot.setDirty (ct.moveRoot o c newVbn) o.objid
    refine ⟨fun n k hn => ?_, fun k hd => hroots k ((dirtyRoot_moveRoot ct o c newVbn k).mpr hd)⟩
    obtain ⟨h1, ⟨-, rfl⟩ | hn₁⟩ := (moved_use hroot hfree).mp hn
    · exact .inr ⟨rfl, hopen (mem_moveRoot ho c newVbn)⟩
    · have hne : n ≠ newVbn := by
        rintro rfl
        rw [hfree] at hn₁
        cases hn₁
      exact .inl ⟨hn₁, fun hk => hk.moveRoot hc (hvbn.symm ▸ h1.symm) hne⟩

/-- A block of a tree moves: no inode does. -/
theorem Retains.moveBlock (ct : Container) (objid : ℕ) (hc : ct.heap p = some c) (newVbn : ℕ) :
    Retains ct (ct.moveBlock objid p c newVbn) := by
  refine ⟨fun n k _ hn => ?_, fun k hd => (dirtyRoot_changeVbn _ objid p c newVbn k).mpr hd⟩
  obtain ⟨h1, h2, hn⟩ := use_inode hn
  refine ⟨hn, fun hk => ?_⟩
  have hmoved : Kept ((ct.take newVbn (.index objid)).changeVbn objid p c newVbn) n :=
    (hk.take (.index objid) h2).changeVbn objid hc h1.symm
  refine hmoved.others (p := p) (fun q hq => Function.update_of_ne hq _ _) (fun q hq _ => hq)
    (Function.update_of_ne h2 _ _) fun c' hc' _ => ?_
  obtain rfl := Option.some.inj ((changeVbn_heap ..).symm.trans hc')
  exact h2.symm

/-- A block of a tree is freed, which is not one of an inode. -/
theorem Retains.dropBlock (ct : Container) (objid : ℕ) (hc : ct.heap p = some c) :
    Retains ct (ct.dropBlock objid p c) := by
  refine ⟨fun n k _ hn => ?_, fun k hd => ?_⟩
  · have hne : n ≠ c.vbn := by
      rintro rfl
      exact absurd ((Function.update_self _ _ _).symm.trans hn) (by simp)
    refine ⟨(Function.update_of_ne hne _ _).symm.trans hn, fun hk => hk.others (p := p) (fun q hq => ?_)
      (fun q hq hqp => (List.mem_erase_of_ne hqp).mpr hq) rfl fun c' hc' _ => ?_⟩
    · exact Function.update_of_ne hq _ _
    · obtain rfl := Option.some.inj (hc.symm.trans hc')
      exact hne.symm
  · exact (dirtyRoot_mapInfo (f := fun o => { o with caches := o.caches.erase p }) (fun _ => ⟨rfl, rfl⟩) ct objid k).mpr hd

/-- No other operation on a tree touches the inodes. -/
theorem runOp_retains (h : Coherent closing skip ct) (hs : ¬ skip objid) (op : ObjectOp)
    (hop : objid < reservedObjId ∨ ∀ newVbn, op ≠ .setRootDirty newVbn) :
    Ends (runOp objid op) ct (fun _ ct' => Retains ct ct') fun _ _ => True := by
  cases op with
  | read vbn =>
    refine readOp_ends fun _ => ?_
    exact (indexBlockRead2_still h objid vbn).mono (fun _ _ hpost => hpost.1.retains) fun _ _ _ => trivial
  | setDirty vbn newVbn =>
    refine (setDirty_spec h.objids objid vbn newVbn).mono (fun _ ct' hpost => ?_) fun _ _ _ => trivial
    obtain rfl | ⟨o, -, -, p, -, c, hc, -, -, rfl⟩ := hpost
    · exact .refl _
    · exact .moveBlock ct objid hc newVbn
  | setRootDirty newVbn =>
    rcases hop with hlt | hne
    · refine (setRootDirty_inodes h hs newVbn).mono (fun _ ct' hpost => ⟨fun n k hk hn => ?_, hpost.2⟩) fun _ _ _ => trivial
      rcases hpost.1 n k hn with hpost | ⟨rfl, -⟩
      · exact hpost
      · exact absurd hlt (not_lt.mpr hk)
    · exact absurd rfl (hne newVbn)
  | alloc vbn =>
    unfold runOp
    refine (allocBlock_use vbn _ ct).seq fun _ ct₁ hpost => ?_
    obtain ⟨hfree, rfl⟩ := hpost
    have h₁ := h.take (.index objid) hfree
    refine (allocObjCache_still h₁.objids objid vbn).seq fun p ct₂ hpost => ?_
    obtain ⟨hstill, hp, hc⟩ := hpost
    refine (setCacheDirty_retains hp).mono (fun _ ct₃ hpost => ?_) fun _ _ _ => trivial
    exact (Retains.take_index ct objid vbn).trans (hstill.retains.trans hpost.1)
  | free vbn =>
    refine (freeOp_spec h.objids objid vbn).mono (fun _ ct' hpost => ?_) fun _ _ _ => trivial
    obtain ⟨o, -, -, p, -, c, hc, -, rfl⟩ := hpost
    exact .dropBlock ct objid hc
  | setName =>
    unfold runOp
    refine (getInfo_spec objid ct).seq fun o ct₁ hpost => ?_
    obtain ⟨rfl, ho, rfl⟩ := hpost
    have hp := h.registered o ho _ (h.inode o ho hs).1
    exact (setCacheDirty_retains hp).mono (fun _ _ hpost => hpost.1) fun _ _ _ => trivial

/-- An operation on a tree loses no inode. -/
theorem runOp_inodes (h : Coherent closing skip ct) (hs : ¬ skip objid) (hi : Inodes ct) (op : ObjectOp) :
    Ends (runOp objid op) ct (fun _ ct' => Inodes ct') fun _ _ => True := by
  by_cases hop : ∃ newVbn, op = .setRootDirty newVbn
  · obtain ⟨newVbn, rfl⟩ := hop
    refine (setRootDirty_inodes h hs newVbn).mono (fun _ ct' hpost n k hk hn => ?_) fun _ _ _ => trivial
    rcases hpost.1 n k hn with ⟨hn, hkept⟩ | ⟨rfl, hd⟩
    · exact (hi n k hk hn).imp hkept (hpost.2 k)
    · exact .inr hd
  · have hne : ∀ newVbn, op ≠ .setRootDirty newVbn := fun newVbn heq => hop ⟨newVbn, heq⟩
    exact (runOp_retains h hs op (.inr hne)).mono (fun _ _ hpost => hpost.inodes hi) fun _ _ _ => trivial

end IndexFs.Object
