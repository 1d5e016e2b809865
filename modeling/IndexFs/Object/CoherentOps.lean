import IndexFs.Object.Coherence
import IndexFs.Object.Operations

/-!
# What the functions do to the trees of caches

The functions of `ofs_metadata_cache.c` first, each by the state that it leaves, then
the operations on the tree of an object, which keep `Coherent`.

`Quiet p` is what all of them but `release_obj_cache` have in common: no cache becomes
flagged, and the caches of the objects outside `p` stay the same.
-/

namespace IndexFs.Object

open IndexFs.Collate IndexFs.Space

variable {ct ct' : Container} {closing skip : ℕ → Prop} {objid n : ℕ} {p q : CachePtr} {c : BlockCache}

/-! ## Flags and trees that stay -/

/-- No cache becomes flagged, and only objects with numbers in `p` get or lose caches. -/
structure Quiet (p : ℕ → Prop) (ct ct' : Container) : Prop where
  flags : ∀ q, Flagged ct' q → Flagged ct q
  caches : ∀ o' ∈ ct'.objInfoList, ¬ p o'.objid → ∃ o ∈ ct.objInfoList, o.objid = o'.objid ∧ o'.caches = o.caches

instance (p : ℕ → Prop) : IsPreorder Container (Quiet p) where
  refl ct := ⟨fun _ h => h, fun o ho _ => ⟨o, ho, rfl, rfl⟩⟩
  trans ct₁ ct₂ ct₃ h₁ h₂ := by
    refine ⟨fun q hq => h₁.flags q (h₂.flags q hq), fun o ho hp => ?_⟩
    obtain ⟨o₂, ho₂, hid₂, hc₂⟩ := h₂.caches o ho hp
    obtain ⟨o₁, ho₁, hid₁, hc₁⟩ := h₁.caches o₂ ho₂ (by rwa [hid₂])
    exact ⟨o₁, ho₁, hid₁.trans hid₂, hc₂.trans hc₁⟩

theorem Quiet.mono {p p' : ℕ → Prop} (h : Quiet p ct ct') (hp : ∀ k, p k → p' k) : Quiet p' ct ct' :=
  ⟨h.flags, fun o ho hn => h.caches o ho fun hk => hn (hp _ hk)⟩

section Quiet

variable {p : ℕ → Prop}

theorem Quiet.same (hheap : ct'.heap = ct.heap) (hobjs : ct'.objInfoList = ct.objInfoList) : Quiet p ct ct' := by
  refine ⟨fun q hq => ?_, fun o ho _ => ⟨o, hobjs ▸ ho, rfl, rfl⟩⟩
  unfold Flagged at hq ⊢
  rwa [← hheap]

/-- One cache changes, or is freed. -/
theorem Quiet.update {x : Option BlockCache}
    (hx : ∀ c, x = some c → c.state = .dirty → c.flush = true → Flagged ct q) :
    Quiet p ct { ct with heap := Function.update ct.heap q x } := by
  refine ⟨fun r ⟨c, hc, hd, hf⟩ => ?_, fun o ho _ => ⟨o, ho, rfl, rfl⟩⟩
  dsimp only at hc
  by_cases hr : r = q
  · rw [hr, Function.update_self] at hc
    exact hr ▸ hx c hc hd hf
  · rw [Function.update_of_ne hr] at hc
    exact ⟨c, hc, hd, hf⟩

theorem getCache_quiet (q : CachePtr) : Relates (Quiet p) (getCache q) := by
  refine Relates.get.bind fun ct => ?_
  cases ct.heap q with
  | some c => exact Relates.pure c
  | none => exact Relates.throw _

/-- A cache that is not flagged. -/
theorem putCache_quiet (q : CachePtr) (c : BlockCache) (hc : c.flush = false) : Relates (Quiet p) (putCache q c) := by
  refine Relates.modify fun ct => .update fun c' hc' _ hf => ?_
  cases hc'
  exact absurd hf (by simp [hc])

theorem osFree_quiet (q : CachePtr) : Relates (Quiet p) (osFree q) :=
  Relates.modify fun ct => .update fun c' hc' => absurd hc' (by simp)

theorem setCacheState_quiet (q : CachePtr) (state : Tree.CacheStatus) : Relates (Quiet p) (setCacheState q state) :=
  (getCache_quiet q).bind fun _ => (putCache_quiet _ _ rfl).bind fun _ =>
    (Relates.modify fun _ => .same rfl rfl).ite (Relates.pure _)

theorem avlAdd_quiet (l : List CachePtr) (q : CachePtr) : Relates (Quiet p) (avlAdd l q) := by
  refine (getCache_quiet q).bind fun c => Relates.get.bind fun ct => (Relates.fromExcept _).bind fun r => ?_
  cases r with
  | some _ => exact Relates.throw _
  | none => exact Relates.pure _

theorem avlRemove_quiet (l : List CachePtr) (q : CachePtr) : Relates (Quiet p) (avlRemove l q) :=
  (Relates.pure _).ite (Relates.throw _)

theorem getInfo_quiet (objid : ℕ) : Relates (Quiet p) (getInfo objid) := by
  refine Relates.get.bind fun ct => ?_
  cases ct.objInfoList.find? (·.objid = objid) with
  | some o => exact Relates.pure o
  | none => exact Relates.throw _

/-- An object in `p` changes, or another one elsewhere than in its caches. -/
theorem modifyInfo_quiet {objid : ℕ} {f : ObjectInfo → ObjectInfo} (hp : p objid ∨ ∀ o, (f o).caches = o.caches)
    (hf : ∀ o, (f o).objid = o.objid := by exact fun _ => rfl) : Relates (Quiet p) (modifyInfo objid f) := by
  refine Relates.modify fun ct => ⟨fun _ h => h, List.forall_mem_map.mpr fun o ho hn => ⟨o, ho, ?_⟩⟩
  split_ifs with hid
  · rw [if_pos hid] at hn
    rcases hp with hp | hp
    · exact absurd (hid ▸ hp) (by rwa [hf] at hn)
    · exact ⟨(hf o).symm, hp o⟩
  · exact ⟨rfl, rfl⟩

theorem setMetadataCache_quiet (metadataCache : List CachePtr) :
    Relates (Quiet p) (modify fun ct => { ct with metadataCache } : ObjectM Unit) :=
  Relates.modify fun _ => .same rfl rfl

theorem insertObjCache_quiet (hp : p objid) (q : CachePtr) : Relates (Quiet p) (insertObjCache objid q) :=
  (getInfo_quiet objid).bind fun _ => (avlAdd_quiet _ _).bind fun _ =>
    (modifyInfo_quiet (.inl hp)).bind fun _ =>
      Relates.get.bind fun _ => (avlAdd_quiet _ _).bind fun _ => setMetadataCache_quiet _

theorem removeObjCache_quiet (hp : p objid) (q : CachePtr) : Relates (Quiet p) (removeObjCache objid q) :=
  (getInfo_quiet objid).bind fun _ => (avlRemove_quiet _ _).bind fun _ =>
    (modifyInfo_quiet (.inl hp)).bind fun _ =>
      Relates.get.bind fun _ => (avlRemove_quiet _ _).bind fun _ => setMetadataCache_quiet _

/-- The cache keeps its flag when it gets another number. -/
theorem setVbn_quiet (q : CachePtr) (newVbn : ℕ) :
    Relates (Quiet p) (getCache q >>= fun c => putCache q { c with vbn := newVbn }) := by
  intro ct
  unfold getCache
  rw [ends_bind, ends_bind, ends_get]
  cases hc : ct.heap q with
  | none => exact refl_of (Quiet p) ct
  | some c =>
    refine Quiet.update fun c' hc' hd hf => ?_
    cases hc'
    exact ⟨c, hc, hd, hf⟩

theorem changeObjCacheVbn_quiet (hp : p objid) (q : CachePtr) (newVbn : ℕ) :
    Relates (Quiet p) (changeObjCacheVbn objid q newVbn) := by
  have hset := (setVbn_quiet q newVbn).bind fun _ => insertObjCache_quiet (p := p) hp q
  rw [bind_assoc] at hset
  exact (removeObjCache_quiet hp q).bind fun _ => hset

theorem allocObjCache_quiet (hp : p objid) (vbn : ℕ) : Relates (Quiet p) (allocObjCache objid vbn) :=
  Relates.get.bind fun _ => Relates.bind (Relates.modify fun _ => .same rfl rfl) fun _ =>
    (putCache_quiet _ _ rfl).bind fun _ => (insertObjCache_quiet hp _).bind fun _ => Relates.pure _

theorem freeObjCache_quiet (hp : p objid) (q : CachePtr) : Relates (Quiet p) (freeObjCache objid q) :=
  (removeObjCache_quiet hp q).bind fun _ => osFree_quiet q

theorem indexBlockRead2_quiet (hp : p objid) (vbn : ℕ) : Relates (Quiet p) (indexBlockRead2 objid vbn) := by
  refine (getInfo_quiet objid).bind fun o => Relates.get.bind fun ct => (Relates.fromExcept _).bind fun r => ?_
  cases r with
  | some q => exact Relates.pure q
  | none =>
    refine Relates.get.bind fun ct => Relates.get.bind fun ct' => (Relates.fromExcept _).bind fun r => ?_
    cases r with
    | some q =>
      exact (avlAdd_quiet _ _).bind fun _ => (modifyInfo_quiet (.inl hp)).bind fun _ => Relates.pure _
    | none =>
      exact (allocObjCache_quiet hp _).bind fun _ => (setCacheState_quiet _ _).bind fun _ => Relates.pure _

theorem allocBlock_quiet (vbn : ℕ) (use : BlockUse) : Relates (Quiet p) (allocBlock vbn use) :=
  Relates.get.bind fun _ => (Relates.throw _).ite (Relates.modify fun _ => .same rfl rfl)

theorem freeBlock_quiet (vbn : ℕ) : Relates (Quiet p) (freeBlock vbn) := Relates.modify fun _ => .same rfl rfl

theorem checkBlock_quiet (objid vbn : ℕ) : Relates (Quiet p) (checkBlock objid vbn) :=
  Relates.get.bind fun _ => (Relates.pure _).ite (Relates.throw _)

theorem cachedBlock_quiet (objid vbn : ℕ) : Relates (Quiet p) (cachedBlock objid vbn) := by
  refine (checkBlock_quiet objid vbn).bind fun _ => Relates.get.bind fun ct => (getInfo_quiet objid).bind fun o =>
    (Relates.fromExcept _).bind fun r => ?_
  cases r with
  | some q => exact Relates.pure q
  | none => exact Relates.throw _

/-- An operation on the tree of an object flags no cache, and changes the caches of that object alone. -/
theorem runOp_quiet (hp : p objid) (op : ObjectOp) : Relates (Quiet p) (runOp objid op) := by
  cases op with
  | read vbn =>
    exact (checkBlock_quiet objid vbn).bind fun _ => (indexBlockRead2_quiet hp vbn).bind fun _ => Relates.pure _
  | setDirty vbn newVbn =>
    refine (cachedBlock_quiet objid vbn).bind fun q => (getCache_quiet q).bind fun c => (Relates.pure _).ite ?_
    exact (allocBlock_quiet _ _).bind fun _ => (changeObjCacheVbn_quiet hp q newVbn).bind fun _ =>
      (setCacheState_quiet q _).bind fun _ => freeBlock_quiet vbn
  | setRootDirty newVbn =>
    refine (getInfo_quiet objid).bind fun o => (Relates.pure _).ite ?_
    exact (allocBlock_quiet _ _).bind fun _ => (modifyInfo_quiet (.inl hp)).bind fun _ =>
      (changeObjCacheVbn_quiet hp _ newVbn).bind fun _ =>
        (modifyInfo_quiet (.inl hp)).bind fun _ => freeBlock_quiet _
  | alloc vbn =>
    exact (allocBlock_quiet _ _).bind fun _ => (allocObjCache_quiet hp vbn).bind fun q => setCacheState_quiet q _
  | free vbn =>
    exact (cachedBlock_quiet objid vbn).bind fun q => (freeBlock_quiet vbn).bind fun _ =>
      (setCacheState_quiet q _).bind fun _ => freeObjCache_quiet hp q
  | setName => exact (getInfo_quiet objid).bind fun o => setCacheState_quiet _ _

theorem runSystemOps_quiet (hp : ∀ x : SystemObject, p x.id) (ops : SystemOps) :
    Relates (Quiet p) (runSystemOps ops) :=
  Relates.forM (fun x : SystemObject × ObjectOp => runOp_quiet (hp x.1) x.2) ops

end Quiet

/-! ## The trees of caches -/

theorem getCache_spec (p : CachePtr) (ct : Container) :
    Ends (getCache p) ct (fun c ct' => ct' = ct ∧ ct.heap p = some c) fun _ _ => True := by
  unfold getCache
  rw [ends_bind, ends_get]
  cases hc : ct.heap p with
  | none => trivial
  | some c => exact ⟨rfl, rfl⟩

theorem setCacheState_spec (p : CachePtr) (state : Tree.CacheStatus) (ct : Container) :
    Ends (setCacheState p state) ct (fun _ ct' => ∃ c, ct.heap p = some c ∧ ct' = ct.setState p c state)
      fun _ _ => True := by
  unfold setCacheState putCache
  refine (getCache_spec p ct).seq fun c ct₁ hpost => ?_
  obtain ⟨rfl, hc⟩ := hpost
  rw [ends_bind, ends_modify]
  unfold Container.setState
  split_ifs
  · exact ⟨c, hc, rfl⟩
  · exact ⟨c, hc, rfl⟩

theorem setCacheState_coherent (h : Coherent closing skip ct) (p : CachePtr) (state : Tree.CacheStatus) :
    Ends (setCacheState p state) ct (fun _ ct' => Coherent closing skip ct') fun _ _ => True := by
  refine (setCacheState_spec p state ct).mono (fun _ ct' hpost => ?_) fun _ _ _ => trivial
  obtain ⟨c, hc, rfl⟩ := hpost
  exact h.setState hc state

theorem avlAdd_spec (l : List CachePtr) (p : CachePtr) (ct : Container) :
    Ends (avlAdd l p) ct (fun l' ct' => ct' = ct ∧ l' = l ++ [p] ∧
      ∃ c, ct.heap p = some c ∧ ∀ q ∈ l, ∃ c', ct.heap q = some c' ∧ c'.vbn ≠ c.vbn) fun _ _ => True := by
  unfold avlAdd
  refine (getCache_spec p ct).seq fun c ct₁ hpost => ?_
  obtain ⟨rfl, hc⟩ := hpost
  rw [ends_bind, ends_get]
  cases hfind : avlFind ct₁.heap c.vbn l with
  | error e => trivial
  | ok r =>
    rw [ends_bind, ends_fromExcept_ok]
    cases r with
    | some q => trivial
    | none => exact ⟨rfl, rfl, c, hc, avlFind_none hfind⟩

theorem avlRemove_spec (l : List CachePtr) (p : CachePtr) (ct : Container) :
    Ends (avlRemove l p) ct (fun l' ct' => ct' = ct ∧ p ∈ l ∧ l' = l.erase p) fun _ _ => True := by
  unfold avlRemove
  split_ifs with hp
  · exact ⟨rfl, hp, rfl⟩
  · trivial

/-- The caches of the one object with the number are replaced. -/
theorem setCaches_spec (hids : (ct.objInfoList.map ObjectInfo.objid).Nodup) {o : ObjectInfo}
    (ho : o ∈ ct.objInfoList) (g : List CachePtr → List CachePtr) :
    Ends (modifyInfo o.objid fun x => { x with caches := g o.caches }) ct
      (fun _ ct' => ct' = ct.mapInfo o.objid fun x => { x with caches := g x.caches }) fun _ _ => True := by
  unfold modifyInfo Container.mapInfo
  rw [ends_modify]
  congr 1
  refine List.map_congr_left fun x hx => ?_
  unfold atObj
  split_ifs with hid
  · rw [List.inj_on_of_nodup_map hids hx ho hid]
  · rfl

/-- A cache joins both trees. -/
def Container.addBoth (ct : Container) (objid : ℕ) (p : CachePtr) : Container :=
  { ct with metadataCache := ct.metadataCache ++ [p] }.mapInfo objid fun o => { o with caches := o.caches ++ [p] }

theorem insertObjCache_spec (hids : (ct.objInfoList.map ObjectInfo.objid).Nodup) (objid : ℕ) (p : CachePtr) :
    Ends (insertObjCache objid p) ct
      (fun _ ct' => ct' = ct.addBoth objid p ∧ (∃ o ∈ ct.objInfoList, o.objid = objid) ∧
        ∃ c, ct.heap p = some c ∧ ∀ q ∈ ct.metadataCache, ∃ c', ct.heap q = some c' ∧ c'.vbn ≠ c.vbn)
      fun _ _ => True := by
  unfold insertObjCache
  refine (getInfo_spec objid ct).seq fun o ct₁ hpost => ?_
  obtain ⟨rfl, ho, rfl⟩ := hpost
  refine (avlAdd_spec _ p ct₁).seq fun l ct₂ hpost => ?_
  obtain ⟨rfl, rfl, -⟩ := hpost
  refine (setCaches_spec hids ho (· ++ [p])).seq fun _ ct₃ hpost => ?_
  subst hpost
  rw [ends_bind, ends_get]
  refine (avlAdd_spec _ p _).seq fun l ct₄ hpost => ?_
  obtain ⟨rfl, rfl, hc⟩ := hpost
  exact ⟨rfl, ⟨o, ho, rfl⟩, hc⟩

/-- A cache leaves both trees. -/
def Container.dropBoth (ct : Container) (objid : ℕ) (p : CachePtr) : Container :=
  { ct.mapInfo objid fun o => { o with caches := o.caches.erase p } with
    metadataCache := ct.metadataCache.erase p }

theorem dropBoth_objids (ct : Container) (objid : ℕ) (p : CachePtr) :
    (ct.dropBoth objid p).objInfoList.map ObjectInfo.objid = ct.objInfoList.map ObjectInfo.objid :=
  mapInfo_objids fun _ => rfl

theorem removeObjCache_spec (hids : (ct.objInfoList.map ObjectInfo.objid).Nodup) (objid : ℕ) (p : CachePtr) :
    Ends (removeObjCache objid p) ct
      (fun _ ct' => ct' = ct.dropBoth objid p ∧ ∃ o ∈ ct.objInfoList, o.objid = objid ∧ p ∈ o.caches)
      fun _ _ => True := by
  unfold removeObjCache
  refine (getInfo_spec objid ct).seq fun o ct₁ hpost => ?_
  obtain ⟨rfl, ho, rfl⟩ := hpost
  refine (avlRemove_spec _ p ct₁).seq fun l ct₂ hpost => ?_
  obtain ⟨rfl, hp, rfl⟩ := hpost
  refine (setCaches_spec hids ho (·.erase p)).seq fun _ ct₃ hpost => ?_
  subst hpost
  rw [ends_bind, ends_get]
  refine (avlRemove_spec _ p _).seq fun l ct₄ hpost => ?_
  obtain ⟨rfl, -, rfl⟩ := hpost
  exact ⟨rfl, o, ho, rfl, hp⟩

theorem Coherent.addBoth (h : Coherent closing skip ct) (hc : ct.heap p = some c)
    (hnew : ∀ q ∈ ct.metadataCache, ∃ c', ct.heap q = some c' ∧ c'.vbn ≠ c.vbn) (hown : UsedBy ct c.vbn objid)
    (hflag : c.state = .dirty → c.flush = true → MayFlag ct closing objid) : Coherent closing skip (ct.addBoth objid p) := by
  have hp : p ∉ ct.metadataCache := fun hp => by
    obtain ⟨c', hc', hne⟩ := hnew p hp
    rw [hc] at hc'
    cases hc'
    exact hne rfl
  refine (h.addMetadata hc hnew ⟨objid, hown, hflag⟩).addCache objid (by simp) (fun c' hc' => ?_)
    fun o ho _ hmem => hp (h.registered o ho p hmem)
  obtain rfl : c = c' := Option.some.inj (hc.symm.trans hc')
  exact hown

theorem Coherent.dropBoth (h : Coherent closing skip ct) {o : ObjectInfo} (ho : o ∈ ct.objInfoList) (hp : p ∈ o.caches)
    (hinode : ¬ skip o.objid → o.inodeCache ≠ p) : Coherent closing skip (ct.dropBoth o.objid p) := by
  refine (h.dropCache fun x hx hid hs => ?_).dropMetadata (List.forall_mem_map.mpr fun x hx hmem => ?_)
  · rw [h.unique hx ho hid]
    exact hinode hs
  · -- the cache was in the tree of this object alone
    unfold atObj at hmem
    split_ifs at hmem with hid
    · exact (h.members x hx).not_mem_erase hmem
    · exact hid (congrArg _ (h.disjoint hx ho hmem hp))

/-- The object that has the cache may have flagged ones if the cache is one. -/
theorem Coherent.mayFlag (h : Coherent closing skip ct) {o : ObjectInfo} (ho : o ∈ ct.objInfoList) (hp : p ∈ o.caches)
    (hc : ct.heap p = some c) (hd : c.state = .dirty) (hf : c.flush = true) : MayFlag ct closing o.objid := by
  obtain ⟨k, hk, hmay⟩ := h.used p (h.registered o ho p hp) c hc
  rw [(h.owner o ho p hp c hc).unique hk]
  exact hmay hd hf

/-- What `change_obj_cache_vbn` does. -/
def Container.changeVbn (ct : Container) (objid : ℕ) (p : CachePtr) (c : BlockCache) (newVbn : ℕ) : Container :=
  { ct.dropBoth objid p with heap := Function.update ct.heap p (some { c with vbn := newVbn }) }.addBoth objid p

theorem changeVbn_heap (ct : Container) (objid : ℕ) (p : CachePtr) (c : BlockCache) (newVbn : ℕ) :
    (ct.changeVbn objid p c newVbn).heap p = some { c with vbn := newVbn } := Function.update_self _ _ _

theorem changeObjCacheVbn_spec (hids : (ct.objInfoList.map ObjectInfo.objid).Nodup) (objid : ℕ) (p : CachePtr)
    (newVbn : ℕ) :
    Ends (changeObjCacheVbn objid p newVbn) ct
      (fun _ ct' => ∃ o ∈ ct.objInfoList, o.objid = objid ∧ p ∈ o.caches ∧ ∃ c, ct.heap p = some c ∧
        ct' = ct.changeVbn objid p c newVbn) fun _ _ => True := by
  unfold changeObjCacheVbn putCache
  refine (removeObjCache_spec hids objid p).seq fun _ ct₁ hpost => ?_
  obtain ⟨rfl, o, ho, rfl, hp⟩ := hpost
  refine (getCache_spec p _).seq fun c ct₂ hpost => ?_
  obtain ⟨rfl, hc⟩ := hpost
  rw [ends_bind, ends_modify]
  have hids' : ((ct.dropBoth o.objid p).objInfoList.map ObjectInfo.objid).Nodup := by
    rwa [dropBoth_objids]
  refine (insertObjCache_spec (by exact hids') o.objid p).mono (fun _ ct₃ hpost => ?_) fun _ _ _ => trivial
  obtain ⟨rfl, -⟩ := hpost
  exact ⟨o, ho, rfl, hp, c, hc, rfl⟩

/-- A cache of an object gets a number that no cache has. -/
theorem Coherent.changeVbn (h : Coherent closing skip ct) {o : ObjectInfo} (ho : o ∈ ct.objInfoList) (hp : p ∈ o.caches)
    (hc : ct.heap p = some c) {newVbn : ℕ} (huse : UsedBy ct newVbn o.objid)
    (hnew : ∀ q ∈ ct.metadataCache, ∀ c', ct.heap q = some c' → c'.vbn ≠ newVbn)
    (hinode : ¬ skip o.objid → o.inodeCache ≠ p) : Coherent closing skip (ct.changeVbn o.objid p c newVbn) := by
  have hout : p ∉ (ct.dropBoth o.objid p).metadataCache := h.nodup.not_mem_erase
  have h₁ := (h.dropBoth ho hp hinode).setOutside hout (some { c with vbn := newVbn })
  refine h₁.addBoth (Function.update_self _ _ _) (fun q hq => ?_) huse fun hd hf => ?_
  · have hqp : q ≠ p := ne_of_mem_of_not_mem hq hout
    obtain ⟨c', hc'⟩ := h.live q (List.mem_of_mem_erase hq)
    exact ⟨c', (Function.update_of_ne hqp _ _).trans hc', hnew q (List.mem_of_mem_erase hq) c' hc'⟩
  · show MayFlag (ct.mapInfo o.objid fun o => { o with caches := o.caches.erase p }) closing o.objid
    refine (mapInfo_mayFlag ?_).mpr (h.mayFlag ho hp hc hd hf)
    exact fun _ => rfl

theorem allocBlock_use (n : ℕ) (u : BlockUse) (ct : Container) :
    Ends (allocBlock n u) ct
      (fun _ ct' => ct.use n = none ∧ ct' = ct.take n u) fun _ _ => True := by
  unfold allocBlock
  rw [ends_bind, ends_get]
  split_ifs with h
  · trivial
  · push Not at h
    exact ⟨h.2.2, rfl⟩

/-- The old number is free again. -/
theorem changeVbn_vbn_ne (h : Coherent closing skip ct) (objid : ℕ) {newVbn : ℕ} (hp : p ∈ ct.metadataCache)
    (hc : ct.heap p = some c) (hne : newVbn ≠ c.vbn) :
    ∀ q ∈ (ct.changeVbn objid p c newVbn).metadataCache, ∀ c', (ct.changeVbn objid p c newVbn).heap q = some c' →
      c'.vbn ≠ c.vbn := by
  intro q hq c' hc'
  have hupdate : (ct.changeVbn objid p c newVbn).heap = Function.update ct.heap p (some { c with vbn := newVbn }) := rfl
  rw [hupdate] at hc'
  by_cases hqp : q = p
  · rw [hqp, Function.update_self] at hc'
    cases hc'
    exact hne
  · rw [Function.update_of_ne hqp] at hc'
    rcases List.mem_append.mp hq with hq | hq
    · exact fun hvbn => hqp (h.distinct q (List.mem_of_mem_erase hq) p hp c' c hc' hc hvbn)
    · exact absurd (List.mem_singleton.mp hq) hqp

/-- A cache of the block `vbn`, in the tree of the object. -/
def CachedAt (ct : Container) (objid vbn : ℕ) (p : CachePtr) : Prop :=
  (∀ o ∈ ct.objInfoList, o.objid = objid → p ∈ o.caches) ∧ ∃ c, ct.heap p = some c ∧ c.vbn = vbn

/-- A cache that joins the tree of an object is there. -/
theorem mem_mapInfo_add : ∀ o ∈ (ct.mapInfo objid fun o => { o with caches := o.caches ++ [p] }).objInfoList,
    o.objid = objid → p ∈ o.caches := by
  refine List.forall_mem_map.mpr fun x hx hid => ?_
  unfold atObj at hid ⊢
  split_ifs at hid ⊢ with hx'
  · simp
  · exact absurd hid hx'

/-- The container with a new empty cache for the block `vbn` in both trees. -/
def Container.newCache (ct : Container) (objid vbn : ℕ) : Container :=
  { ct with
    nextCache := ct.nextCache + 1
    heap := Function.update ct.heap ct.nextCache (some ⟨vbn, .empty, false⟩) }.addBoth objid ct.nextCache

theorem newCache_heap (ct : Container) (objid vbn : ℕ) :
    (ct.newCache objid vbn).heap ct.nextCache = some ⟨vbn, .empty, false⟩ := Function.update_self _ _ _

theorem allocObjCache_spec (hids : (ct.objInfoList.map ObjectInfo.objid).Nodup) (objid vbn : ℕ) :
    Ends (allocObjCache objid vbn) ct
      (fun p ct' => p = ct.nextCache ∧ ct' = ct.newCache objid vbn ∧ p ∉ ct.metadataCache ∧
        ∀ q ∈ ct.metadataCache, ∃ c', ct.heap q = some c' ∧ c'.vbn ≠ vbn) fun _ _ => True := by
  unfold allocObjCache putCache
  rw [ends_bind, ends_get, ends_bind, ends_modify, ends_bind, ends_modify]
  refine (insertObjCache_spec (by exact hids) objid ct.nextCache).seq fun _ ct₁ hpost => ?_
  obtain ⟨rfl, -, c, hc, hnew⟩ := hpost
  have hself := hc
  dsimp only at hself
  rw [Function.update_self] at hself
  cases hself
  -- the new address is in no tree, as `avl_add` has seen
  have hp : ct.nextCache ∉ ct.metadataCache := fun hp => by
    obtain ⟨c', hc', hne⟩ := hnew _ hp
    rw [hc] at hc'
    cases hc'
    exact hne rfl
  refine ⟨rfl, rfl, hp, fun q hq => ?_⟩
  obtain ⟨c', hc', hne⟩ := hnew q hq
  have hqp : q ≠ ct.nextCache := ne_of_mem_of_not_mem hq hp
  exact ⟨c', (Function.update_of_ne hqp _ _).symm.trans hc', hne⟩

theorem Coherent.newCache (h : Coherent closing skip ct) {vbn : ℕ} (huse : UsedBy ct vbn objid)
    (hp : ct.nextCache ∉ ct.metadataCache)
    (hnew : ∀ q ∈ ct.metadataCache, ∃ c', ct.heap q = some c' ∧ c'.vbn ≠ vbn) :
    Coherent closing skip (ct.newCache objid vbn) := by
  have h₁ : Coherent closing skip { ct with nextCache := ct.nextCache + 1 } := ⟨h.nodup, h.live, h.distinct, h.used, h.objids,
    h.members, h.registered, h.owner, h.inode⟩
  have h₂ := h₁.setOutside hp (some { vbn, state := .empty, flush := false })
  refine h₂.addBoth (Function.update_self _ _ _) (fun q hq => ?_) huse fun _ hf => absurd hf (by simp)
  obtain ⟨c', hc', hne⟩ := hnew q hq
  have hqp : q ≠ ct.nextCache := ne_of_mem_of_not_mem hq hp
  exact ⟨c', (Function.update_of_ne hqp _ _).trans hc', hne⟩

theorem cachedAt_newCache (ct : Container) (objid vbn : ℕ) : CachedAt (ct.newCache objid vbn) objid vbn ct.nextCache :=
  ⟨mem_mapInfo_add, _, newCache_heap .., rfl⟩

theorem allocObjCache_coherent (h : Coherent closing skip ct) {vbn : ℕ} (huse : UsedBy ct vbn objid) :
    Ends (allocObjCache objid vbn) ct
      (fun p ct' => Coherent closing skip ct' ∧ ct'.use = ct.use ∧ CachedAt ct' objid vbn p) fun _ _ => True := by
  refine (allocObjCache_spec h.objids objid vbn).mono (fun p ct' hpost => ?_) fun _ _ _ => trivial
  obtain ⟨rfl, rfl, hp, hnew⟩ := hpost
  exact ⟨h.newCache huse hp hnew, rfl, cachedAt_newCache ct objid vbn⟩

/-- A block that is freed leaves the trees with its cache. -/
theorem freeObjCache_coherent (h : Coherent closing skip ct)
    (hinode : ∀ o ∈ ct.objInfoList, o.objid = objid → ¬ skip objid → o.inodeCache ≠ p) :
    Ends (freeObjCache objid p) ct (fun _ ct' => Coherent closing skip ct') fun _ _ => True := by
  unfold freeObjCache osFree
  refine (removeObjCache_spec h.objids objid p).seq fun _ ct₁ hpost => ?_
  obtain ⟨rfl, o, ho, rfl, hp⟩ := hpost
  rw [ends_modify]
  exact (h.dropBoth ho hp (hinode o ho rfl)).setOutside h.nodup.not_mem_erase none

/-- `index_block_read2` finds a cache of the block in the tree of the object, or in that of the container, or reads
the block into a new one. -/
theorem indexBlockRead2_spec (hids : (ct.objInfoList.map ObjectInfo.objid).Nodup) (objid vbn : ℕ) :
    Ends (indexBlockRead2 objid vbn) ct
      (fun p ct' => ∃ o ∈ ct.objInfoList, o.objid = objid ∧
        ((ct' = ct ∧ p ∈ o.caches ∧ ∃ c, ct.heap p = some c ∧ c.vbn = vbn) ∨
          (ct' = ct.mapInfo objid (fun o => { o with caches := o.caches ++ [p] }) ∧ p ∈ ct.metadataCache ∧
            (∃ c, ct.heap p = some c ∧ c.vbn = vbn) ∧ ∀ q ∈ o.caches, ∃ c', ct.heap q = some c' ∧ c'.vbn ≠ vbn) ∨
          ct' = (ct.newCache objid vbn).setState p ⟨vbn, .empty, false⟩ .clean ∧ p = ct.nextCache ∧
            p ∉ ct.metadataCache ∧ ∀ q ∈ ct.metadataCache, ∃ c', ct.heap q = some c' ∧ c'.vbn ≠ vbn))
      fun _ _ => True := by
  unfold indexBlockRead2
  refine (getInfo_spec objid ct).seq fun o ct₁ hpost => ?_
  obtain ⟨rfl, ho, rfl⟩ := hpost
  rw [ends_bind, ends_get]
  cases hfind : avlFind ct₁.heap vbn o.caches with
  | error e => trivial
  | ok r =>
    rw [ends_bind, ends_fromExcept_ok]
    cases r with
    | some p => exact ⟨o, ho, rfl, .inl ⟨rfl, avlFind_some hfind⟩⟩
    | none =>
      dsimp only
      rw [ends_bind, ends_get, ends_bind, ends_get]
      cases hfind' : avlFind ct₁.heap vbn ct₁.metadataCache with
      | error e => trivial
      | ok r =>
        rw [ends_bind, ends_fromExcept_ok]
        cases r with
        | some p =>
          obtain ⟨hp, hc⟩ := avlFind_some hfind'
          refine (avlAdd_spec o.caches p ct₁).seq fun l ct₂ hpost => ?_
          obtain ⟨rfl, rfl, -⟩ := hpost
          refine (setCaches_spec hids ho (· ++ [p])).seq fun _ ct₃ hpost => ?_
          subst hpost
          exact ⟨o, ho, rfl, .inr (.inl ⟨rfl, hp, hc, avlFind_none hfind⟩)⟩
        | none =>
          refine (allocObjCache_spec hids o.objid vbn).seq fun p ct₂ hpost => ?_
          obtain ⟨rfl, rfl, hp, hnew⟩ := hpost
          refine (setCacheState_spec ct₁.nextCache .clean _).seq fun _ ct₃ hpost => ?_
          obtain ⟨c, hc, rfl⟩ := hpost
          obtain rfl := Option.some.inj ((newCache_heap ..).symm.trans hc)
          exact ⟨o, ho, rfl, .inr (.inr ⟨rfl, rfl, hp, hnew⟩)⟩

/-- A block of an object that is read is in a cache of the object. -/
theorem indexBlockRead2_coherent (h : Coherent closing skip ct) {vbn : ℕ} (huse : UsedBy ct vbn objid) :
    Ends (indexBlockRead2 objid vbn) ct
      (fun p ct' => Coherent closing skip ct' ∧ ct'.use = ct.use ∧ CachedAt ct' objid vbn p) fun _ _ => True := by
  refine (indexBlockRead2_spec h.objids objid vbn).mono (fun p ct' hpost => ?_) fun _ _ _ => trivial
  obtain ⟨o, ho, rfl, ⟨rfl, hp, hc⟩ | ⟨rfl, hp, ⟨c, hc, hvbn⟩, hnone⟩ | ⟨rfl, rfl, hp, hnew⟩⟩ := hpost
  · exact ⟨h, rfl, fun x hx hid => h.unique ho hx hid.symm ▸ hp, hc⟩
  · have hadd := h.addCache o.objid hp (fun c' hc' => ?_) fun x hx hid hmem => ?_
    · exact ⟨hadd, rfl, mem_mapInfo_add, c, hc, hvbn⟩
    · obtain rfl : c = c' := Option.some.inj (hc.symm.trans hc')
      exact hvbn ▸ huse
    · obtain ⟨c', hc', hne⟩ := hnone p (h.unique hx ho hid ▸ hmem)
      rw [hc] at hc'
      cases hc'
      exact hne hvbn
  · obtain ⟨hmem, -⟩ := cachedAt_newCache ct o.objid vbn
    refine ⟨(h.newCache huse hp hnew).setState (newCache_heap ..) .clean, rfl, hmem, _, Function.update_self _ _ _, rfl⟩

/-! ## Operations on the tree of an object -/

/-- Reading a block of the tree. -/
theorem readOp_ends {Q : Container → Prop} {vbn : ℕ}
    (h : ct.use vbn = some (.index objid) → Ends (indexBlockRead2 objid vbn) ct (fun _ ct' => Q ct') fun _ _ => True) :
    Ends (runOp objid (.read vbn)) ct (fun _ ct' => Q ct') fun _ _ => True := by
  unfold runOp checkBlock
  rw [ends_bind, ends_bind, ends_get]
  split_ifs with huse
  · rw [ends_pure]
    exact (h huse).seq fun _ _ hpost => hpost
  · trivial

/-- A block of a tree moves to another number, and its cache with it, and becomes dirty. -/
def Container.moveBlock (ct : Container) (objid : ℕ) (p : CachePtr) (c : BlockCache) (newVbn : ℕ) : Container :=
  { ((ct.take newVbn (.index objid)).changeVbn objid p c newVbn).setState p { c with vbn := newVbn } .dirty with
    use := Function.update (Function.update ct.use newVbn (some (.index objid))) c.vbn none }

theorem setDirty_spec (hids : (ct.objInfoList.map ObjectInfo.objid).Nodup) (objid vbn newVbn : ℕ) :
    Ends (runOp objid (.setDirty vbn newVbn)) ct
      (fun _ ct' => ct' = ct ∨ ∃ o ∈ ct.objInfoList, o.objid = objid ∧ ∃ p ∈ o.caches, ∃ c, ct.heap p = some c ∧
        ct.use c.vbn = some (.index objid) ∧ ct.use newVbn = none ∧ ct' = ct.moveBlock objid p c newVbn)
      fun _ _ => True := by
  unfold runOp
  refine (cachedBlock_spec objid vbn ct).seq fun p ct₁ hpost => ?_
  obtain ⟨rfl, huse, o, ho, rfl, hp, c, hc, rfl⟩ := hpost
  refine (getCache_spec p ct₁).seq fun c' ct₂ hpost => ?_
  obtain ⟨rfl, hc'⟩ := hpost
  split_ifs
  · exact .inl rfl
  · refine (allocBlock_use newVbn _ ct₂).seq fun _ ct₃ hpost => ?_
    obtain ⟨hfree, rfl⟩ := hpost
    refine (changeObjCacheVbn_spec (by exact hids) o.objid p newVbn).seq fun _ ct₄ hpost => ?_
    obtain ⟨-, -, -, -, c', hc', rfl⟩ := hpost
    obtain rfl : c = c' := Option.some.inj (hc.symm.trans hc')
    refine (setCacheState_spec p .dirty _).seq fun _ ct₅ hpost => ?_
    obtain ⟨c', hc', rfl⟩ := hpost
    obtain rfl := Option.some.inj ((changeVbn_heap ..).symm.trans hc')
    exact .inr ⟨o, ho, rfl, p, hp, c, hc, huse, hfree, rfl⟩

theorem setDirty_coherent (h : Coherent closing skip ct) (hs : ¬ skip objid) (vbn newVbn : ℕ) :
    Ends (runOp objid (.setDirty vbn newVbn)) ct (fun _ ct' => Coherent closing skip ct') fun _ _ => True := by
  refine (setDirty_spec h.objids objid vbn newVbn).mono (fun _ ct' hpost => ?_) fun _ _ _ => trivial
  obtain rfl | ⟨o, ho, rfl, p, hp, c, hc, huse, hfree, rfl⟩ := hpost
  · exact h
  · have hmem := h.registered o ho p hp
    have hnew : ∀ q ∈ ct.metadataCache, ∀ c', ct.heap q = some c' → c'.vbn ≠ newVbn := fun q hq c' hc' =>
      h.vbn_ne hfree hq hc'
    have h₁ := h.take (.index o.objid) hfree
    have h₂ := h₁.changeVbn ho hp hc ⟨_, Function.update_self _ _ _, rfl⟩ hnew fun hs => h.inode_ne ho hs hc huse
    have hold := changeVbn_vbn_ne h₁ o.objid hmem hc (hnew p hmem c hc).symm
    exact (h₂.setUse (u := none) hold).setState (changeVbn_heap _ o.objid _ _ _) .dirty

/-- The root block of an object gets a new number, and its inode cache with it. -/
def Container.moveRoot (ct : Container) (o : ObjectInfo) (c : BlockCache) (newVbn : ℕ) : Container :=
  ((ct.take newVbn (.inode o.objid)).mapInfo o.objid fun o => { o with rootVbn := newVbn }).changeVbn o.objid
    o.inodeCache c newVbn

/-- The root block moves and becomes dirty. -/
theorem setRootDirty_spec (hids : (ct.objInfoList.map ObjectInfo.objid).Nodup) (objid newVbn : ℕ) :
    Ends (runOp objid (.setRootDirty newVbn)) ct
      (fun _ ct' => ct' = ct ∨ ∃ o ∈ ct.objInfoList, o.objid = objid ∧ ct.use newVbn = none ∧
        ∃ c, ct.heap o.inodeCache = some c ∧
          ct' = { (ct.moveRoot o c newVbn).mapInfo objid fun o => { o with rootState := .dirty } with
            use := Function.update (Function.update ct.use newVbn (some (.inode objid))) o.rootVbn none })
      fun _ _ => True := by
  unfold runOp
  refine (getInfo_spec objid ct).seq fun o ct₁ hpost => ?_
  obtain ⟨rfl, ho, rfl⟩ := hpost
  split_ifs
  · exact .inl rfl
  · refine (allocBlock_use newVbn _ ct₁).seq fun _ ct₂ hpost => ?_
    obtain ⟨hfree, rfl⟩ := hpost
    unfold modifyInfo
    rw [ends_bind, ends_modify]
    have hids' : (((ct₁.take newVbn (.inode o.objid)).mapInfo o.objid fun o =>
        { o with rootVbn := newVbn }).objInfoList.map ObjectInfo.objid).Nodup := by
      rw [mapInfo_objids]
      · exact hids
      · exact fun _ => rfl
    refine (changeObjCacheVbn_spec hids' o.objid o.inodeCache newVbn).seq fun _ ct₃ hpost => ?_
    obtain ⟨-, -, -, -, c, hc, rfl⟩ := hpost
    exact .inr ⟨o, ho, rfl, hfree, c, hc, rfl⟩

theorem setRootDirty_coherent (h : Coherent closing skip ct) (hs : ¬ skip objid) (newVbn : ℕ) :
    Ends (runOp objid (.setRootDirty newVbn)) ct (fun _ ct' => Coherent closing skip ct') fun _ _ => True := by
  refine (setRootDirty_spec h.objids objid newVbn).mono (fun _ ct' hpost => ?_) fun _ _ _ => trivial
  obtain rfl | ⟨o, ho, rfl, hfree, c, hc, rfl⟩ := hpost
  · exact h
  · obtain ⟨hp, ⟨c', hc', hvbn⟩, -⟩ := h.inode o ho hs
    obtain rfl : c = c' := Option.some.inj (hc.symm.trans hc')
    have hmem := h.registered o ho _ hp
    have hnew : ∀ q ∈ ct.metadataCache, ∀ c', ct.heap q = some c' → c'.vbn ≠ newVbn := fun q hq c' hc' =>
      h.vbn_ne hfree hq hc'
    -- the inode cache has the old number for a moment
    have h₂ : Coherent closing (fun k => skip k ∨ k = o.objid) (ct.take newVbn (.inode o.objid)) :=
      (h.take _ hfree).mono (fun _ => id) fun _ => .inl
    have h₃ := h₂.mapCore o.objid (f := fun o => { o with rootVbn := newVbn }) (fun _ => rfl)
      (fun _ => rfl) fun hn => absurd (.inr rfl) hn
    have ho₃ : { o with rootVbn := newVbn } ∈ ((ct.take newVbn (.inode o.objid)).mapInfo o.objid fun o =>
        { o with rootVbn := newVbn }).objInfoList := List.mem_map.mpr ⟨o, ho, if_pos rfl⟩
    have h₄ := h₃.changeVbn ho₃ hp hc ⟨_, Function.update_self _ _ _, rfl⟩ hnew fun hn => absurd (.inr rfl) hn
    have hne : newVbn ≠ c.vbn := (hnew _ hmem c hc).symm
    have hold := changeVbn_vbn_ne h₃ o.objid hmem hc hne
    rw [hvbn] at hne hold
    have h₅ := (h₄.mapCore o.objid (f := fun o => { o with rootState := .dirty }) (fun _ => rfl)
      (fun _ => rfl) fun _ _ => ⟨rfl, rfl⟩).setUse (u := none) hold
    refine h₅.settle fun x hx hid => ?_
    have hheap : Function.update ct.heap o.inodeCache (some { c with vbn := newVbn }) o.inodeCache =
        some { c with vbn := newVbn } := Function.update_self _ _ _
    have huse : Function.update (Function.update ct.use newVbn (some (.inode o.objid))) o.rootVbn none newVbn =
        some (.inode o.objid) := (Function.update_of_ne hne _ _).trans (Function.update_self _ _ _)
    obtain ⟨x₃, hx₃, rfl⟩ := List.mem_map.mp hx
    obtain ⟨x₂, hx₂, rfl⟩ := List.mem_map.mp hx₃
    obtain ⟨x₁, hx₁, rfl⟩ := List.mem_map.mp hx₂
    obtain ⟨x, hx₀, rfl⟩ := List.mem_map.mp hx₁
    have hxo : x.objid = o.objid := by
      rw [← hid]
      simp only [atObj]
      split_ifs <;> rfl
    obtain rfl := h.unique hx₀ ho hxo
    simp only [atObj, if_true]
    exact ⟨by simp, ⟨_, hheap, rfl⟩, huse⟩

/-- A block of a tree is freed, and its cache leaves both trees. -/
def Container.dropBlock (ct : Container) (objid : ℕ) (p : CachePtr) (c : BlockCache) : Container :=
  { ct.dropBoth objid p with
    heap := Function.update ct.heap p none
    use := Function.update ct.use c.vbn none }

theorem freeOp_spec (hids : (ct.objInfoList.map ObjectInfo.objid).Nodup) (objid vbn : ℕ) :
    Ends (runOp objid (.free vbn)) ct
      (fun _ ct' => ∃ o ∈ ct.objInfoList, o.objid = objid ∧ ∃ p ∈ o.caches, ∃ c, ct.heap p = some c ∧
        ct.use c.vbn = some (.index objid) ∧ ct' = ct.dropBlock objid p c) fun _ _ => True := by
  unfold runOp
  refine (cachedBlock_spec objid vbn ct).seq fun p ct₁ hpost => ?_
  obtain ⟨rfl, huse, o, ho, rfl, hp, c, hc, rfl⟩ := hpost
  unfold freeBlock
  rw [ends_bind, ends_modify]
  refine (setCacheState_spec p .empty _).seq fun _ ct₂ hpost => ?_
  obtain ⟨c', -, rfl⟩ := hpost
  unfold freeObjCache osFree
  refine (removeObjCache_spec (by exact hids) o.objid p).seq fun _ ct₃ hpost => ?_
  obtain ⟨rfl, -⟩ := hpost
  rw [ends_modify]
  refine ⟨o, ho, rfl, p, hp, c, hc, huse, ?_⟩
  unfold Container.dropBlock
  congr 1
  exact Function.update_idem _ _ _

theorem freeOp_coherent (h : Coherent closing skip ct) (hs : ¬ skip objid) (vbn : ℕ) :
    Ends (runOp objid (.free vbn)) ct (fun _ ct' => Coherent closing skip ct') fun _ _ => True := by
  refine (freeOp_spec h.objids objid vbn).mono (fun _ ct' hpost => ?_) fun _ _ _ => trivial
  obtain ⟨o, ho, rfl, p, hp, c, hc, huse, rfl⟩ := hpost
  have hout : p ∉ (ct.dropBoth o.objid p).metadataCache := h.nodup.not_mem_erase
  have h₁ := (h.dropBoth ho hp fun hs => h.inode_ne ho hs hc huse).setUse (u := none) fun q hq c' hc' hvbn =>
    hout (h.distinct q (List.mem_of_mem_erase hq) p (h.registered o ho p hp) c' c hc' hc hvbn ▸ hq)
  exact h₁.setOutside hout none

/-- An operation on the tree of an open object keeps the trees of caches coherent. -/
theorem runOp_coherent (h : Coherent closing skip ct) (hs : ¬ skip objid) (op : ObjectOp) :
    Ends (runOp objid op) ct (fun _ ct' => Coherent closing skip ct') fun _ _ => True := by
  cases op with
  | read vbn =>
    refine readOp_ends fun huse => ?_
    exact (indexBlockRead2_coherent h ⟨_, huse, rfl⟩).mono (fun _ _ hpost => hpost.1) fun _ _ _ => trivial
  | setDirty vbn newVbn => exact setDirty_coherent h hs vbn newVbn
  | setRootDirty newVbn => exact setRootDirty_coherent h hs newVbn
  | alloc vbn =>
    unfold runOp
    refine (allocBlock_use vbn _ ct).seq fun _ ct₁ hpost => ?_
    obtain ⟨hfree, rfl⟩ := hpost
    have hnew : UsedBy (ct.take vbn (.index objid)) vbn objid := ⟨_, Function.update_self _ _ _, rfl⟩
    refine (allocObjCache_coherent (h.take _ hfree) hnew).seq fun p ct₂ hpost => ?_
    exact setCacheState_coherent hpost.1 p .dirty
  | free vbn => exact freeOp_coherent h hs vbn
  | setName =>
    unfold runOp
    refine (getInfo_spec objid ct).seq fun o ct₁ hpost => ?_
    obtain ⟨rfl, -, -⟩ := hpost
    exact setCacheState_coherent h _ _

end IndexFs.Object
