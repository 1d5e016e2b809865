import IndexFs.Object.Registry

/-!
# The trees of caches

`CacheCoherent` is what the code takes for granted of its two kinds of cache trees:
the caches of an open object are caches of its container, these have different
numbers, and the root block of an object is in the cache of its inode.

`Coherent` is the invariant. It adds for whom the block of a cache is in use: that of a
cache that waits to be freed by the next flush (`Flagged`) is in use for a user object
or for one that is closed, or is being closed (`closing`). Objects in `skip` are at a
point where the cache of their inode is not settled.

Results: each change of the trees, of a cache or of the blocks in use keeps `Coherent`.
-/

namespace IndexFs.Object

open IndexFs.Collate IndexFs.Space

variable {ct ct' : Container} {closing skip : ℕ → Prop} {objid n : ℕ} {p q : CachePtr} {c : BlockCache}

/-- The caches of the open objects are caches of the container, each with a number of its own. -/
structure CacheCoherent (ct : Container) : Prop where
  registered : ∀ o ∈ ct.objInfoList, ∀ p ∈ o.caches, p ∈ ct.metadataCache ∧ ∃ c, ct.heap p = some c
  nodup : ct.metadataCache.Nodup
  distinct : ∀ p ∈ ct.metadataCache, ∀ q ∈ ct.metadataCache, ∀ c c', ct.heap p = some c → ct.heap q = some c' →
    c.vbn = c'.vbn → p = q
  root : ∀ o ∈ ct.objInfoList, ∃ c, ct.heap o.inodeCache = some c ∧ c.vbn = o.rootVbn

/-- The next flush frees the cache. -/
def Flagged (ct : Container) (p : CachePtr) : Prop :=
  ∃ c, ct.heap p = some c ∧ c.state = .dirty ∧ c.flush = true

/-- A flagged cache of the object may be there. -/
def MayFlag (ct : Container) (closing : ℕ → Prop) (objid : ℕ) : Prop :=
  reservedObjId ≤ objid ∨ closing objid ∨ ∀ o ∈ ct.objInfoList, o.objid ≠ objid

/-- The block `n` is in use for the object. -/
def UsedBy (ct : Container) (n objid : ℕ) : Prop := ∃ u, ct.use n = some u ∧ u.objid = objid

/-- The cache of the inode of an object has the number of its root block. -/
def InodeCached (ct : Container) (o : ObjectInfo) : Prop :=
  o.inodeCache ∈ o.caches ∧ (∃ c, ct.heap o.inodeCache = some c ∧ c.vbn = o.rootVbn) ∧
    ct.use o.rootVbn = some (.inode o.objid)

/-- The invariant of the cache trees. -/
structure Coherent (closing skip : ℕ → Prop) (ct : Container) : Prop where
  nodup : ct.metadataCache.Nodup
  live : ∀ p ∈ ct.metadataCache, ∃ c, ct.heap p = some c
  distinct : ∀ p ∈ ct.metadataCache, ∀ q ∈ ct.metadataCache, ∀ c c', ct.heap p = some c → ct.heap q = some c' →
    c.vbn = c'.vbn → p = q
  used : ∀ p ∈ ct.metadataCache, ∀ c, ct.heap p = some c →
    ∃ k, UsedBy ct c.vbn k ∧ (c.state = .dirty → c.flush = true → MayFlag ct closing k)
  objids : (ct.objInfoList.map ObjectInfo.objid).Nodup
  members : ∀ o ∈ ct.objInfoList, o.caches.Nodup
  registered : ∀ o ∈ ct.objInfoList, ∀ p ∈ o.caches, p ∈ ct.metadataCache
  owner : ∀ o ∈ ct.objInfoList, ∀ p ∈ o.caches, ∀ c, ct.heap p = some c → UsedBy ct c.vbn o.objid
  inode : ∀ o ∈ ct.objInfoList, ¬ skip o.objid → InodeCached ct o

theorem Coherent.cacheCoherent (h : Coherent closing (fun _ => False) ct) : CacheCoherent ct where
  registered o ho p hp := ⟨h.registered o ho p hp, h.live p (h.registered o ho p hp)⟩
  nodup := h.nodup
  distinct := h.distinct
  root o ho := (h.inode o ho id).2.1

theorem Coherent.unique (h : Coherent closing skip ct) {o o' : ObjectInfo} (ho : o ∈ ct.objInfoList)
    (ho' : o' ∈ ct.objInfoList) (hid : o.objid = o'.objid) : o = o' :=
  List.inj_on_of_nodup_map h.objids ho ho' hid

theorem UsedBy.unique {k k' : ℕ} (h : UsedBy ct n k) (h' : UsedBy ct n k') : k = k' := by
  obtain ⟨u, hu, rfl⟩ := h
  obtain ⟨u', hu', rfl⟩ := h'
  rw [hu] at hu'
  cases hu'
  rfl

/-- A cache is in the tree of one object at most. -/
theorem Coherent.disjoint (h : Coherent closing skip ct) {o o' : ObjectInfo} (ho : o ∈ ct.objInfoList)
    (ho' : o' ∈ ct.objInfoList) (hp : p ∈ o.caches) (hp' : p ∈ o'.caches) : o = o' := by
  obtain ⟨c, hc⟩ := h.live p (h.registered o ho p hp)
  exact h.unique ho ho' ((h.owner o ho p hp c hc).unique (h.owner o' ho' p hp' c hc))

/-- A block that is not in use is in no cache. -/
theorem Coherent.vbn_ne (h : Coherent closing skip ct) (hn : ct.use n = none) (hp : p ∈ ct.metadataCache)
    (hc : ct.heap p = some c) : c.vbn ≠ n := by
  obtain ⟨k, ⟨u, hu, -⟩, -⟩ := h.used p hp c hc
  rintro rfl
  rw [hn] at hu
  cases hu

/-- The cache of an inode is not that of a block of the tree. -/
theorem Coherent.inode_ne (h : Coherent closing skip ct) {o : ObjectInfo} (ho : o ∈ ct.objInfoList) (hs : ¬ skip o.objid)
    (hc : ct.heap p = some c) (huse : ct.use c.vbn = some (.index objid)) : o.inodeCache ≠ p := by
  obtain ⟨-, ⟨c', hc', hvbn⟩, hroot⟩ := h.inode o ho hs
  rintro rfl
  rw [hc] at hc'
  cases hc'
  rw [← hvbn, huse] at hroot
  cases hroot

/-- What the invariant looks at. -/
def Container.trees (ct : Container) :
    (CachePtr → Option BlockCache) × List CachePtr × List ObjectInfo × (ℕ → Option BlockUse) :=
  (ct.heap, ct.metadataCache, ct.objInfoList, ct.use)

theorem Coherent.congr (h : Coherent closing skip ct) (htrees : ct'.trees = ct.trees) : Coherent closing skip ct' := by
  obtain ⟨hheap, hmeta, hobjs, huse⟩ : ct'.heap = ct.heap ∧ ct'.metadataCache = ct.metadataCache ∧
      ct'.objInfoList = ct.objInfoList ∧ ct'.use = ct.use := by
    simpa [Container.trees] using htrees
  cases ct
  cases ct'
  subst hheap hmeta hobjs huse
  exact ⟨h.nodup, h.live, h.distinct, h.used, h.objids, h.members, h.registered, h.owner, h.inode⟩

/-! ## Changes of one object -/

/-- An object changes. -/
def Container.mapInfo (ct : Container) (objid : ℕ) (f : ObjectInfo → ObjectInfo) : Container :=
  { ct with objInfoList := ct.objInfoList.map (atObj objid f) }

theorem mapInfo_objids {f : ObjectInfo → ObjectInfo} (hf : ∀ o, (f o).objid = o.objid) :
    (ct.mapInfo objid f).objInfoList.map ObjectInfo.objid = ct.objInfoList.map ObjectInfo.objid := by
  unfold Container.mapInfo
  rw [List.map_map]
  exact List.map_congr_left fun o _ => atObj_objid hf o

theorem mapInfo_mayFlag {f : ObjectInfo → ObjectInfo} (hf : ∀ o, (f o).objid = o.objid) {k : ℕ} :
    MayFlag (ct.mapInfo objid f) closing k ↔ MayFlag ct closing k := by
  unfold MayFlag Container.mapInfo
  rw [List.forall_mem_map]
  simp only [atObj_objid hf]

theorem Coherent.mono {closing' skip' : ℕ → Prop} (h : Coherent closing skip ct)
    (hclosing : ∀ k, closing k → closing' k) (hskip : ∀ k, skip k → skip' k) : Coherent closing' skip' ct where
  nodup := h.nodup
  live := h.live
  distinct := h.distinct
  used p hp c hc := by
    obtain ⟨k, hk, hmay⟩ := h.used p hp c hc
    exact ⟨k, hk, fun hd hf => (hmay hd hf).imp_right (Or.imp_left (hclosing k))⟩
  objids := h.objids
  members := h.members
  registered := h.registered
  owner := h.owner
  inode o ho hs := h.inode o ho fun hk => hs (hskip _ hk)

/-- An object changes in its caches. -/
theorem Coherent.mapInfo (h : Coherent closing skip ct) {f : ObjectInfo → ObjectInfo} (hid : ∀ o, (f o).objid = o.objid)
    (hcaches : ∀ o ∈ ct.objInfoList, o.objid = objid → (f o).caches.Nodup ∧
      ∀ q ∈ (f o).caches, q ∈ ct.metadataCache ∧ ∀ c, ct.heap q = some c → UsedBy ct c.vbn o.objid)
    (hinode : ∀ o ∈ ct.objInfoList, o.objid = objid → ¬ skip objid → InodeCached ct (f o)) :
    Coherent closing skip (ct.mapInfo objid f) where
  nodup := h.nodup
  live := h.live
  distinct := h.distinct
  used p hp c hc := by
    obtain ⟨k, hk, hmay⟩ := h.used p hp c hc
    exact ⟨k, hk, fun hd hf => (mapInfo_mayFlag hid).mpr (hmay hd hf)⟩
  objids := by
    rw [mapInfo_objids hid]
    exact h.objids
  members := List.forall_mem_map.mpr fun o ho => by
    unfold atObj
    split_ifs with ho'
    · exact (hcaches o ho ho').1
    · exact h.members o ho
  registered := List.forall_mem_map.mpr fun o ho q hq => by
    unfold atObj at hq
    split_ifs at hq with ho'
    · exact ((hcaches o ho ho').2 q hq).1
    · exact h.registered o ho q hq
  owner := List.forall_mem_map.mpr fun o ho q hq => by
    rw [atObj_objid hid]
    unfold atObj at hq
    split_ifs at hq with ho'
    · exact ((hcaches o ho ho').2 q hq).2
    · exact h.owner o ho q hq
  inode := List.forall_mem_map.mpr fun o ho hs => by
    rw [atObj_objid hid] at hs
    unfold atObj
    split_ifs with ho'
    · exact hinode o ho ho' (ho' ▸ hs)
    · exact h.inode o ho hs

/-- An object changes elsewhere than in its caches. -/
theorem Coherent.mapCore (h : Coherent closing skip ct) (objid : ℕ) {f : ObjectInfo → ObjectInfo}
    (hid : ∀ o, (f o).objid = o.objid) (hcaches : ∀ o, (f o).caches = o.caches)
    (hroot : ¬ skip objid → ∀ o, (f o).inodeCache = o.inodeCache ∧ (f o).rootVbn = o.rootVbn) :
    Coherent closing skip (ct.mapInfo objid f) := by
  refine h.mapInfo hid (fun o ho _ => ?_) fun o ho ho' hs => ?_
  · rw [hcaches]
    exact ⟨h.members o ho, fun q hq => ⟨h.registered o ho q hq, h.owner o ho q hq⟩⟩
  · obtain ⟨h1, h2⟩ := hroot hs o
    unfold InodeCached
    rw [hid, hcaches, h1, h2]
    exact h.inode o ho (ho' ▸ hs)

/-- A cache of the container joins the tree of the object that its block is in use for. -/
theorem Coherent.addCache (h : Coherent closing skip ct) (objid : ℕ) (hp : p ∈ ct.metadataCache)
    (hown : ∀ c, ct.heap p = some c → UsedBy ct c.vbn objid)
    (hnew : ∀ o ∈ ct.objInfoList, o.objid = objid → p ∉ o.caches) :
    Coherent closing skip (ct.mapInfo objid fun o => { o with caches := o.caches ++ [p] }) := by
  refine h.mapInfo (fun _ => rfl) (fun o ho ho' => ⟨?_, fun q hq => ?_⟩) fun o ho ho' hs => ?_
  · exact List.nodup_append'.mpr ⟨h.members o ho, by simp, by simpa using hnew o ho ho'⟩
  · rcases List.mem_append.mp hq with hq | hq
    · exact ⟨h.registered o ho q hq, h.owner o ho q hq⟩
    · obtain rfl := List.mem_singleton.mp hq
      exact ⟨hp, ho' ▸ hown⟩
  · obtain ⟨h1, h2⟩ := h.inode o ho (ho' ▸ hs)
    exact ⟨List.mem_append_left _ h1, h2⟩

/-- A cache leaves the tree of an object. -/
theorem Coherent.dropCache (h : Coherent closing skip ct)
    (hinode : ∀ o ∈ ct.objInfoList, o.objid = objid → ¬ skip objid → o.inodeCache ≠ p) :
    Coherent closing skip (ct.mapInfo objid fun o => { o with caches := o.caches.erase p }) := by
  refine h.mapInfo (fun _ => rfl) (fun o ho ho' => ⟨(h.members o ho).erase p, fun q hq => ?_⟩)
    fun o ho ho' hs => ?_
  · have hq' := List.mem_of_mem_erase hq
    exact ⟨h.registered o ho q hq', h.owner o ho q hq'⟩
  · obtain ⟨h1, h2⟩ := h.inode o ho (ho' ▸ hs)
    exact ⟨(List.mem_erase_of_ne (hinode o ho ho' hs)).mpr h1, h2⟩

/-! ## Changes of the caches -/

/-- Caches change in other things than their numbers; those that become flagged may. -/
theorem Coherent.setHeap (h : Coherent closing skip ct) {heap : CachePtr → Option BlockCache}
    (hlive : ∀ q ∈ ct.metadataCache, ∃ c, heap q = some c)
    (hheap : ∀ q ∈ ct.metadataCache, ∀ c', heap q = some c' → ∃ c, ct.heap q = some c ∧ c.vbn = c'.vbn ∧
      (c'.flush = true → c' = c ∨ ∀ k, UsedBy ct c.vbn k → MayFlag ct closing k)) :
    Coherent closing skip { ct with heap } where
  nodup := h.nodup
  live := hlive
  distinct p hp q hq c c' hc hc' hvbn := by
    obtain ⟨c₁, hc₁, hv₁, -⟩ := hheap p hp c hc
    obtain ⟨c₂, hc₂, hv₂, -⟩ := hheap q hq c' hc'
    exact h.distinct p hp q hq c₁ c₂ hc₁ hc₂ (by rw [hv₁, hv₂, hvbn])
  used p hp c hc := by
    obtain ⟨c₁, hc₁, hv₁, hsame⟩ := hheap p hp c hc
    obtain ⟨k, hk, hmay⟩ := h.used p hp c₁ hc₁
    refine ⟨k, hv₁ ▸ hk, fun hd hf => ?_⟩
    rcases hsame hf with rfl | hall
    · exact hmay hd hf
    · exact hall k hk
  objids := h.objids
  members := h.members
  registered := h.registered
  owner o ho q hq c hc := by
    obtain ⟨c₁, hc₁, hv₁, -⟩ := hheap q (h.registered o ho q hq) c hc
    rw [← hv₁]
    exact h.owner o ho q hq c₁ hc₁
  inode o ho hs := by
    obtain ⟨h1, ⟨c, hc, hvbn⟩, h3⟩ := h.inode o ho hs
    have hmem := h.registered o ho _ h1
    obtain ⟨c', hc'⟩ := hlive _ hmem
    obtain ⟨c₁, hc₁, hv₁, -⟩ := hheap _ hmem c' hc'
    rw [hc] at hc₁
    cases hc₁
    exact ⟨h1, ⟨c', hc', by rw [← hv₁, hvbn]⟩, h3⟩

/-- A cache that is in no tree may change in any way. -/
theorem Coherent.setOutside (h : Coherent closing skip ct) (hp : p ∉ ct.metadataCache) (x : Option BlockCache) :
    Coherent closing skip { ct with heap := Function.update ct.heap p x } := by
  have hne : ∀ q ∈ ct.metadataCache, q ≠ p := fun q hq hqp => hp (hqp ▸ hq)
  refine h.setHeap (fun q hq => ?_) fun q hq c hc => ?_
  · rw [Function.update_of_ne (hne q hq)]
    exact h.live q hq
  · rw [Function.update_of_ne (hne q hq)] at hc
    exact ⟨c, hc, rfl, fun _ => .inl rfl⟩

/-- What `SET_CACHE_CLEAN` and the like leave. -/
def Container.setState (ct : Container) (p : CachePtr) (c : BlockCache) (state : Tree.CacheStatus) : Container :=
  { ct with
    heap := Function.update ct.heap p (some { c with state, flush := false })
    onDisk := if state = .dirty then Function.update ct.onDisk c.vbn false else ct.onDisk }

/-- They clear the flag. -/
theorem Coherent.setState (h : Coherent closing skip ct) (hc : ct.heap p = some c) (state : Tree.CacheStatus) :
    Coherent closing skip (ct.setState p c state) := by
  suffices hset : Coherent closing skip
      { ct with heap := Function.update ct.heap p (some { c with state, flush := false }) } from hset.congr rfl
  refine h.setHeap (fun q hq => ?_) fun q hq c' hc' => ?_
  · by_cases hqp : q = p
    · exact ⟨_, by rw [hqp, Function.update_self]⟩
    · rw [Function.update_of_ne hqp]
      exact h.live q hq
  · by_cases hqp : q = p
    · rw [hqp, Function.update_self] at hc'
      cases hc'
      exact ⟨c, hqp ▸ hc, rfl, fun hf => absurd hf (by simp)⟩
    · rw [Function.update_of_ne hqp] at hc'
      exact ⟨c', hc', rfl, fun _ => .inl rfl⟩

/-- `SET_CACHE_FLUSH` on a cache of an object that may have flagged ones. -/
theorem Coherent.setFlush (h : Coherent closing skip ct) (hc : ct.heap p = some c) (hown : UsedBy ct c.vbn objid)
    (hmay : MayFlag ct closing objid) :
    Coherent closing skip { ct with heap := Function.update ct.heap p (some { c with flush := true }) } := by
  refine h.setHeap (fun q hq => ?_) fun q hq c' hc' => ?_
  · by_cases hqp : q = p
    · exact ⟨_, by rw [hqp, Function.update_self]⟩
    · rw [Function.update_of_ne hqp]
      exact h.live q hq
  · by_cases hqp : q = p
    · rw [hqp, Function.update_self] at hc'
      cases hc'
      exact ⟨c, hqp ▸ hc, rfl, fun _ => .inr fun k hk => hown.unique hk ▸ hmay⟩
    · rw [Function.update_of_ne hqp] at hc'
      exact ⟨c', hc', rfl, fun _ => .inl rfl⟩

/-- A cache with a number of its own joins the tree of the container. -/
theorem Coherent.addMetadata (h : Coherent closing skip ct) (hc : ct.heap p = some c)
    (hnew : ∀ q ∈ ct.metadataCache, ∃ c', ct.heap q = some c' ∧ c'.vbn ≠ c.vbn)
    (hused : ∃ k, UsedBy ct c.vbn k ∧ (c.state = .dirty → c.flush = true → MayFlag ct closing k)) :
    Coherent closing skip { ct with metadataCache := ct.metadataCache ++ [p] } where
  nodup := by
    have hp : p ∉ ct.metadataCache := fun hp => by
      obtain ⟨c', hc', hne⟩ := hnew p hp
      rw [hc] at hc'
      cases hc'
      exact hne rfl
    exact List.nodup_append'.mpr ⟨h.nodup, by simp, by simpa using hp⟩
  live q hq := by
    rcases List.mem_append.mp hq with hq | hq
    · exact h.live q hq
    · exact ⟨c, List.mem_singleton.mp hq ▸ hc⟩
  distinct q hq r hr c₁ c₂ hc₁ hc₂ hvbn := by
    have hother : ∀ q ∈ ct.metadataCache, ∀ c', ct.heap q = some c' → c'.vbn ≠ c.vbn := fun q hq c' hc' => by
      obtain ⟨c'', hc'', hne⟩ := hnew q hq
      rw [hc'] at hc''
      cases hc''
      exact hne
    rcases List.mem_append.mp hq with hq' | hq' <;> rcases List.mem_append.mp hr with hr' | hr'
    · exact h.distinct q hq' r hr' c₁ c₂ hc₁ hc₂ hvbn
    · obtain rfl := List.mem_singleton.mp hr'
      rw [hc] at hc₂
      cases hc₂
      exact absurd hvbn (hother q hq' c₁ hc₁)
    · obtain rfl := List.mem_singleton.mp hq'
      rw [hc] at hc₁
      cases hc₁
      exact absurd hvbn.symm (hother r hr' c₂ hc₂)
    · rw [List.mem_singleton.mp hq', List.mem_singleton.mp hr']
  used q hq c' hc' := by
    rcases List.mem_append.mp hq with hq | hq
    · exact h.used q hq c' hc'
    · obtain rfl := List.mem_singleton.mp hq
      rw [hc] at hc'
      cases hc'
      exact hused
  objids := h.objids
  members := h.members
  registered o ho q hq := List.mem_append_left _ (h.registered o ho q hq)
  owner := h.owner
  inode := h.inode

/-- A cache that is in no tree of an object leaves the tree of the container. -/
theorem Coherent.dropMetadata (h : Coherent closing skip ct) (hp : ∀ o ∈ ct.objInfoList, p ∉ o.caches) :
    Coherent closing skip { ct with metadataCache := ct.metadataCache.erase p } where
  nodup := h.nodup.erase p
  live q hq := h.live q (List.mem_of_mem_erase hq)
  distinct q hq r hr := h.distinct q (List.mem_of_mem_erase hq) r (List.mem_of_mem_erase hr)
  used q hq := h.used q (List.mem_of_mem_erase hq)
  objids := h.objids
  members := h.members
  registered o ho q hq :=
    (List.mem_erase_of_ne fun hqp : q = p => hp o ho (hqp ▸ hq)).mpr (h.registered o ho q hq)
  owner := h.owner
  inode := h.inode

/-! ## Changes of the blocks in use -/

theorem Coherent.setUse (h : Coherent closing skip ct) {u : Option BlockUse}
    (hn : ∀ q ∈ ct.metadataCache, ∀ c, ct.heap q = some c → c.vbn ≠ n) :
    Coherent closing skip { ct with use := Function.update ct.use n u } where
  nodup := h.nodup
  live := h.live
  distinct := h.distinct
  used p hp c hc := by
    obtain ⟨k, ⟨u, hu, huk⟩, hmay⟩ := h.used p hp c hc
    exact ⟨k, ⟨u, (Function.update_of_ne (hn p hp c hc) _ _).trans hu, huk⟩, hmay⟩
  objids := h.objids
  members := h.members
  registered := h.registered
  owner o ho p hp c hc := by
    obtain ⟨u, hu, huk⟩ := h.owner o ho p hp c hc
    exact ⟨u, (Function.update_of_ne (hn p (h.registered o ho p hp) c hc) _ _).trans hu, huk⟩
  inode o ho hs := by
    obtain ⟨h1, ⟨c, hc, hvbn⟩, h3⟩ := h.inode o ho hs
    refine ⟨h1, ⟨c, hc, hvbn⟩, (Function.update_of_ne ?_ _ _).trans h3⟩
    rw [← hvbn]
    exact hn _ (h.registered o ho _ h1) c hc

/-- What `OFS_ALLOC_BLOCK` leaves. -/
def Container.take (ct : Container) (n : ℕ) (u : BlockUse) : Container :=
  { ct with use := Function.update ct.use n (some u), onDisk := Function.update ct.onDisk n false }

theorem Coherent.take (h : Coherent closing skip ct) (u : BlockUse) (hfree : ct.use n = none) :
    Coherent closing skip (ct.take n u) :=
  (h.setUse (u := some u) fun _ hq _ hc => h.vbn_ne hfree hq hc).congr rfl

/-! ## Registered objects -/

/-- An object without caches is registered. -/
theorem Coherent.register (h : Coherent closing skip ct) {o : ObjectInfo} {objs : List ObjectInfo}
    (hobjs : objs.Perm (o :: ct.objInfoList)) (hnew : ∀ x ∈ ct.objInfoList, x.objid ≠ o.objid)
    (hcaches : o.caches = []) (hflag : reservedObjId ≤ o.objid ∨ ∀ p, ¬ Flagged ct p) :
    Coherent closing (fun k => skip k ∨ k = o.objid) { ct with objInfoList := objs } where
  nodup := h.nodup
  live := h.live
  distinct := h.distinct
  used p hp c hc := by
    obtain ⟨k, hk, hmay⟩ := h.used p hp c hc
    refine ⟨k, hk, fun hd hf => ?_⟩
    by_cases hko : k = o.objid
    · rcases hflag with hres | hnone
      · exact .inl (hko ▸ hres)
      · exact absurd ⟨c, hc, hd, hf⟩ (hnone p)
    · refine (hmay hd hf).imp_right (Or.imp_right fun hall x hx => ?_)
      rcases List.mem_cons.mp (hobjs.mem_iff.mp hx) with rfl | hx
      · exact fun h => hko h.symm
      · exact hall x hx
  objids := by
    refine (hobjs.map ObjectInfo.objid).nodup_iff.mpr (List.nodup_cons.mpr ⟨fun hmem => ?_, h.objids⟩)
    obtain ⟨x, hx, hxo⟩ := List.mem_map.mp hmem
    exact hnew x hx hxo
  members x hx := by
    rcases List.mem_cons.mp (hobjs.mem_iff.mp hx) with rfl | hx
    · simp [hcaches]
    · exact h.members x hx
  registered x hx := by
    rcases List.mem_cons.mp (hobjs.mem_iff.mp hx) with rfl | hx
    · simp [hcaches]
    · exact h.registered x hx
  owner x hx := by
    rcases List.mem_cons.mp (hobjs.mem_iff.mp hx) with rfl | hx
    · simp [hcaches]
    · exact h.owner x hx
  inode x hx hs := by
    rcases List.mem_cons.mp (hobjs.mem_iff.mp hx) with rfl | hx
    · exact absurd (.inr rfl) hs
    · exact h.inode x hx fun hk => hs (.inl hk)

/-- An object goes off the list. -/
theorem Coherent.unregister (h : Coherent (fun k => closing k ∨ k = objid) (fun k => skip k ∨ k = objid) ct) :
    Coherent closing skip { ct with objInfoList := ct.objInfoList.filter (·.objid ≠ objid) } where
  nodup := h.nodup
  live := h.live
  distinct := h.distinct
  used p hp c hc := by
    obtain ⟨k, hk, hmay⟩ := h.used p hp c hc
    refine ⟨k, hk, fun hd hf => ?_⟩
    rcases hmay hd hf with hmay | (hmay | rfl) | hmay
    · exact .inl hmay
    · exact .inr (.inl hmay)
    · exact .inr (.inr fun x hx => by simpa using (List.mem_filter.mp hx).2)
    · exact .inr (.inr fun x hx => hmay x (List.mem_filter.mp hx).1)
  objids := h.objids.sublist (List.filter_sublist.map _)
  members o ho := h.members o (List.mem_filter.mp ho).1
  registered o ho := h.registered o (List.mem_filter.mp ho).1
  owner o ho := h.owner o (List.mem_filter.mp ho).1
  inode o ho hs := by
    obtain ⟨ho, hne⟩ := List.mem_filter.mp ho
    refine h.inode o ho ?_
    rintro (hk | hk)
    · exact hs hk
    · simp [hk] at hne

/-- The cache of an inode is settled. -/
theorem Coherent.settle (h : Coherent closing (fun k => skip k ∨ k = objid) ct)
    (hinode : ∀ o ∈ ct.objInfoList, o.objid = objid → InodeCached ct o) : Coherent closing skip ct where
  nodup := h.nodup
  live := h.live
  distinct := h.distinct
  used := h.used
  objids := h.objids
  members := h.members
  registered := h.registered
  owner := h.owner
  inode o ho hs := by
    by_cases hk : o.objid = objid
    · exact hinode o ho hk
    · exact h.inode o ho (not_or.mpr ⟨hs, hk⟩)

end IndexFs.Object
