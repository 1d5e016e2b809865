import IndexFs.Object.Registry

/-!
# What the calls do to the registry

One lemma for each function of `Manager.lean`: from a state in which the registry is
in order, it leads to one in which it is. `View.Only p` says which objects a call may
change, and that it leaves their handles alone.
-/

namespace IndexFs.Object

open IndexFs.Collate IndexFs.Space

variable {ct ct' : Container} {v v' v'' : View} {l : List (ℕ × ℕ)} {objid n : ℕ}

/-! ## Which objects change -/

/-- Only objects with numbers in `p` change, and not in their handles. -/
structure View.Only (p : ℕ → Prop) (v v' : View) : Prop where
  nextHandle : v'.nextHandle = v.nextHandle
  objs : ∃ f : ObjectInfo → ObjectInfo, v'.objs = v.objs.map f ∧ ∀ o, (f o).objid = o.objid ∧
    (f o).objHndList = o.objHndList ∧ (f o).refCnt = o.refCnt ∧ (¬ p o.objid → f o = o)

theorem View.Only.of_eq {p : ℕ → Prop} (hobjs : v'.objs = v.objs) (hnext : v'.nextHandle = v.nextHandle) :
    View.Only p v v' :=
  ⟨hnext, id, by simpa using hobjs, fun _ => ⟨rfl, rfl, rfl, fun _ => rfl⟩⟩

theorem View.Only.refl {p : ℕ → Prop} : View.Only p v v := .of_eq rfl rfl

theorem View.Only.trans {p : ℕ → Prop} (h1 : View.Only p v v') (h2 : View.Only p v' v'') : View.Only p v v'' := by
  obtain ⟨hn1, f, hf, hf'⟩ := h1
  obtain ⟨hn2, g, hg, hg'⟩ := h2
  refine ⟨hn2.trans hn1, g ∘ f, by rw [hg, hf, List.map_map], fun o => ?_⟩
  obtain ⟨h1, h2, h3, h4⟩ := hf' o
  obtain ⟨g1, g2, g3, g4⟩ := hg' (f o)
  refine ⟨g1.trans h1, g2.trans h2, g3.trans h3, fun hp => ?_⟩
  rw [Function.comp_apply, g4 (by rwa [h1]), h4 hp]

theorem View.Only.mono {p q : ℕ → Prop} (h : View.Only p v v') (hpq : ∀ k, p k → q k) : View.Only q v v' := by
  obtain ⟨hn, f, hf, hf'⟩ := h
  exact ⟨hn, f, hf, fun o => ⟨(hf' o).1, (hf' o).2.1, (hf' o).2.2.1, fun hq => (hf' o).2.2.2 fun hp =>
    hq (hpq _ hp)⟩⟩

/-- Every object was there before. -/
theorem View.Only.mem {p : ℕ → Prop} (h : View.Only p v v') {o' : ObjectInfo} (ho' : o' ∈ v'.objs) :
    ∃ o ∈ v.objs, o'.objid = o.objid ∧ (¬ p o.objid → o' = o) := by
  obtain ⟨-, f, hf, hf'⟩ := h
  rw [hf] at ho'
  obtain ⟨o, ho, rfl⟩ := List.mem_map.mp ho'
  exact ⟨o, ho, (hf' o).1, (hf' o).2.2.2⟩

/-- An object that does not change is still there. -/
theorem View.Only.of_mem {p : ℕ → Prop} (h : View.Only p v v') {o : ObjectInfo} (ho : o ∈ v.objs)
    (hp : ¬ p o.objid) : o ∈ v'.objs := by
  obtain ⟨-, f, hf, hf'⟩ := h
  rw [hf]
  exact List.mem_map.mpr ⟨o, ho, (hf' o).2.2.2 hp⟩

/-! ## Single steps -/

@[simp] theorem core_objid (o : ObjectInfo) : o.core.objid = o.objid := rfl

theorem core_mem {o : ObjectInfo} (ho : o ∈ ct.objInfoList) : o.core ∈ ct.view.objs :=
  List.mem_map_of_mem ho

theorem getInfo_spec (objid : ℕ) (ct : Container) :
    Ends (getInfo objid) ct (fun o ct' => ct' = ct ∧ o ∈ ct.objInfoList ∧ o.objid = objid)
      fun _ _ => True := by
  unfold getInfo
  rw [ends_bind, ends_get]
  cases h : ct.objInfoList.find? (·.objid = objid) with
  | none => trivial
  | some o => exact ⟨rfl, List.mem_of_find?_eq_some h, by simpa using List.find?_some h⟩

/-- A change of an object that does not look at its caches. -/
theorem modifyInfo_spec (objid : ℕ) (f : ObjectInfo → ObjectInfo) (hf : ∀ o, (f o).core = f o.core)
    (ct : Container) {F : ErrorCode → Container → Prop} :
    Ends (modifyInfo objid f) ct (fun _ ct' => ct'.view = ct.view.mapObj objid f) F := by
  unfold modifyInfo
  rw [ends_modify]
  unfold Container.view View.mapObj
  simp only [List.map_map, View.mk.injEq, and_true]
  refine List.map_congr_left fun o _ => ?_
  by_cases h : o.objid = objid
  · simp [atObj, h, hf]
  · simp [atObj, h]

theorem allocBlock_spec (u : BlockUse) (ct : Container) :
    Ends (allocBlock n u) ct (fun _ ct' => n < 2 ^ 64 ∧ ct.view.use n = none ∧
      ct'.view = ct.view.setUse n (some u)) fun _ _ => True := by
  unfold allocBlock
  rw [ends_bind, ends_get]
  split_ifs with h
  · trivial
  · push Not at h
    exact ⟨h.2.1, h.2.2, rfl⟩

theorem freeBlock_spec (n : ℕ) (ct : Container) :
    Ends (freeBlock n) ct (fun _ ct' => ct'.view = ct.view.setUse n none) fun _ _ => True := rfl

theorem cachedBlock_spec (objid n : ℕ) (ct : Container) :
    Ends (cachedBlock objid n) ct (fun p ct' => ct' = ct ∧ ct.view.use n = some (.index objid) ∧
      ∃ o ∈ ct.objInfoList, o.objid = objid ∧ p ∈ o.caches ∧ ∃ c, ct.heap p = some c ∧ c.vbn = n)
      fun _ _ => True := by
  unfold cachedBlock checkBlock
  rw [ends_bind, ends_bind, ends_get]
  split_ifs with h
  · rw [ends_pure, ends_bind, ends_get]
    refine (getInfo_spec objid ct).seq fun o ct' hpost => ?_
    obtain ⟨rfl, ho, hid⟩ := hpost
    cases hfind : avlFind ct'.heap n o.caches with
    | error e => trivial
    | ok r =>
      cases r with
      | none => trivial
      | some p => exact ⟨rfl, h, o, ho, hid, avlFind_some hfind⟩
  · trivial

/-! ## Operations on the tree of an object -/

theorem View.Only.mapObj {p : ℕ → Prop} (h : View.Only p v v') (hp : p objid) {f : ObjectInfo → ObjectInfo}
    (hf : ∀ o, (f o).objid = o.objid ∧ (f o).objHndList = o.objHndList ∧ (f o).refCnt = o.refCnt) :
    View.Only p v (v'.mapObj objid f) := by
  refine h.trans ⟨rfl, _, rfl, fun o => ?_⟩
  unfold atObj
  split_ifs with ho
  · exact ⟨(hf o).1, (hf o).2.1, (hf o).2.2, fun hn => absurd (ho ▸ hp) hn⟩
  · exact ⟨rfl, rfl, rfl, fun _ => rfl⟩

theorem View.Only.setUse {p : ℕ → Prop} {u : Option BlockUse} (h : View.Only p v v') :
    View.Only p v (v'.setUse n u) := h.trans (.of_eq rfl rfl)

/-- An operation on the tree of an object changes that object and blocks in use. -/
theorem runOp_spec (hr : Registry ct.view l) (op : ObjectOp) :
    Ends (runOp objid op) ct (fun _ ct' => Registry ct'.view l ∧ ct.view.Only (· = objid) ct'.view)
      fun _ _ => True := by
  cases op with
  | read vbn =>
    unfold runOp checkBlock
    rw [ends_bind, ends_bind, ends_get]
    split_ifs
    · rw [ends_pure]
      refine (indexBlockRead2_keeps objid vbn).seq (fun _ ct' h => ?_) fun _ _ _ => trivial
      rw [ends_pure, h]
      exact ⟨hr, .refl⟩
    · trivial
  | setDirty vbn newVbn =>
    unfold runOp
    refine (cachedBlock_spec objid vbn ct).seq fun p ct₀ hpost => ?_
    obtain ⟨rfl, huse, -⟩ := hpost
    refine (getCache_keeps p).seq (fun c ct₁ h₁ => ?_) fun _ _ _ => trivial
    split_ifs
    · rw [ends_pure, h₁]
      exact ⟨hr, .refl⟩
    · refine (allocBlock_spec _ ct₁).seq fun _ ct₂ hpost => ?_
      obtain ⟨hlt, hfree, h₂⟩ := hpost
      refine (changeObjCacheVbn_keeps _ _ _).seq (fun _ ct₃ h₃ => ?_) fun _ _ _ => trivial
      refine (setCacheState_keeps _ _).seq (fun _ ct₄ h₄ => ?_) fun _ _ _ => trivial
      refine (freeBlock_spec vbn ct₄).mono (fun _ ct₅ h₅ => ?_) fun _ _ _ => trivial
      rw [h₁] at hfree h₂
      rw [h₅, h₄, h₃, h₂]
      have hne : vbn ≠ newVbn := fun h => by rw [h, hfree] at huse; cases huse
      have hr₁ : Registry (ct₀.view.setUse newVbn (some (.index objid))) l :=
        hr.setUse (by simp [hfree]) (by simp) fun _ => hlt
      exact ⟨hr₁.setUse (by simp [View.setUse, Function.update_of_ne hne, huse]) (by simp) (by simp),
        .setUse (.setUse .refl)⟩
  | setRootDirty newVbn =>
    unfold runOp
    refine (getInfo_spec objid ct).seq fun o ct₀ hpost => ?_
    obtain ⟨rfl, ho, rfl⟩ := hpost
    split_ifs
    · exact ⟨hr, .refl⟩
    · refine (allocBlock_spec _ ct₀).seq fun _ ct₁ hpost => ?_
      obtain ⟨hlt, hfree, h₁⟩ := hpost
      refine (modifyInfo_spec o.objid (fun o => { o with rootVbn := newVbn }) (fun _ => rfl) ct₁).seq fun _ ct₂ h₂ => ?_
      refine (changeObjCacheVbn_keeps _ _ _).seq (fun _ ct₃ h₃ => ?_) fun _ _ _ => trivial
      refine (modifyInfo_spec o.objid (fun o => { o with rootState := .dirty }) (fun _ => rfl) ct₃).seq fun _ ct₄ h₄ => ?_
      refine (freeBlock_spec o.rootVbn ct₄).mono (fun _ ct₅ h₅ => ?_) fun _ _ _ => trivial
      rw [h₅, h₄, h₃, h₂, h₁, View.mapObj_mapObj (f := fun o => { o with rootVbn := newVbn }) _ _ fun _ => rfl]
      have hmove := hr.moveRoot (core_mem ho) hfree hlt
      refine ⟨hmove, .setUse (.mapObj (.setUse .refl) ?_ ?_)⟩
      · rfl
      · exact fun _ => ⟨rfl, rfl, rfl⟩
  | alloc vbn =>
    unfold runOp
    refine (allocBlock_spec _ ct).seq fun _ ct₁ hpost => ?_
    obtain ⟨hlt, hfree, h₁⟩ := hpost
    refine (allocObjCache_keeps _ _).seq (fun p ct₂ h₂ => ?_) fun _ _ _ => trivial
    refine (setCacheState_keeps _ _ ct₂).mono (fun _ ct₃ h₃ => ?_) fun _ _ _ => trivial
    rw [h₃, h₂, h₁]
    exact ⟨hr.setUse (by simp [hfree]) (by simp) fun _ => hlt, .setUse .refl⟩
  | free vbn =>
    unfold runOp
    refine (cachedBlock_spec objid vbn ct).seq fun p ct₀ hpost => ?_
    obtain ⟨rfl, huse, -⟩ := hpost
    refine (freeBlock_spec vbn ct₀).seq fun _ ct₁ h₁ => ?_
    refine (setCacheState_keeps _ _).seq (fun _ ct₂ h₂ => ?_) fun _ _ _ => trivial
    refine (freeObjCache_keeps _ _ ct₂).mono (fun _ ct₃ h₃ => ?_) fun _ _ _ => trivial
    rw [h₃, h₂, h₁]
    exact ⟨hr.setUse (by simp [huse]) (by simp) (by simp), .setUse .refl⟩
  | setName =>
    unfold runOp
    refine (getInfo_keeps objid).seq (fun o ct₁ h₁ => ?_) fun _ _ _ => trivial
    refine (setCacheState_keeps _ _ ct₁).mono (fun _ ct₂ h₂ => ?_) fun _ _ _ => trivial
    rw [h₂, h₁]
    exact ⟨hr, .refl⟩

theorem SystemObject.id_lt (x : SystemObject) : x.id < reservedObjId := by
  cases x <;> decide

/-- Operations of the container on its own objects. -/
theorem runSystemOps_spec (hr : Registry ct.view l) (ops : SystemOps) :
    Ends (runSystemOps ops) ct (fun _ ct' => Registry ct'.view l ∧ ct.view.Only (· < reservedObjId) ct'.view)
      fun _ _ => True := by
  unfold runSystemOps
  refine Ends.forM (I := fun _ (ct' : Container) => Registry ct'.view l ∧ ct.view.Only (· < reservedObjId) ct'.view)
    ⟨hr, .refl⟩ fun x _ ct₁ h => ?_
  refine (runOp_spec h.1 x.2).mono (fun _ ct₂ h₂ => ⟨h₂.1, h.2.trans (h₂.2.mono ?_)⟩) fun _ _ _ => trivial
  rintro k rfl
  exact x.1.id_lt

/-- A search of the objid tree only reads. -/
theorem readIdBlocks_keeps (vbns : List ℕ) : Keeps Container.view (readIdBlocks vbns) := by
  refine Keeps.forM (fun vbn => ?_) vbns
  unfold runOp checkBlock
  refine Keeps.bind (Keeps.get.bind fun ct => (Keeps.pure _).ite (Keeps.throw _)) fun _ => ?_
  exact (indexBlockRead2_keeps _ _).bind fun _ => Keeps.pure _

/-! ## Validation and commit -/

/-- The objid tree has the number of the root block of an object, as its inode has. -/
def Valid (l : List (ℕ × ℕ)) (o : ObjectInfo) : Prop := (o.objid, o.rootVbn) ∈ l ∧ o.inodeNo = o.rootVbn

theorem Valid.congr {l l' : List (ℕ × ℕ)} {o : ObjectInfo} (h : Valid l o)
    (hl : (o.objid, o.rootVbn) ∈ l' ↔ (o.objid, o.rootVbn) ∈ l) : Valid l' o := ⟨hl.mpr h.1, h.2⟩

/-- What `validate_obj_inode` does. -/
structure Validated (objid : ℕ) (v : View) (l : List (ℕ × ℕ)) (v' : View) (l' : List (ℕ × ℕ)) : Prop where
  registry : Registry v' l'
  only : v.Only (fun k => k = objid ∨ k < reservedObjId) v'
  ids : ∀ x, x.1 ≠ objid → (x ∈ l' ↔ x ∈ l)
  valid : reservedObjId ≤ objid → ∀ o ∈ v'.objs, o.objid = objid → Valid l' o

/-- The inode of a dirty object gets the number of the root block. -/
theorem Registry.setInodeNo (hr : Registry v l) {o : ObjectInfo} (ho : o ∈ v.objs) (hd : o.rootState = .dirty)
    (n : ℕ) : Registry (v.mapObj o.objid fun o => { o with inodeNo := n }) l := by
  refine hr.mapObjs (atObj_objid fun _ => rfl) (fun x hx => ?_) fun x hx hk hd' => ?_
  · unfold atObj
    split_ifs <;> rfl
  · by_cases h : x.objid = o.objid
    · obtain rfl := hr.unique hx ho h
      rw [atObj, if_pos rfl] at hd'
      exact absurd hd hd'
    · rw [atObj, if_neg h] at hd' ⊢
      exact hr.clean x hx hk hd'

theorem validateObjInode_spec (hr : Registry ct.view l) (objid : ℕ) (ops : SystemOps) :
    Ends (validateObjInode objid ops) ct (fun _ ct' => ∃ l', Validated objid ct.view l ct'.view l')
      fun _ _ => True := by
  unfold validateObjInode
  refine (getInfo_spec objid ct).seq fun o ct₀ hpost => ?_
  obtain ⟨rfl, ho, rfl⟩ := hpost
  have hunique : ∀ x ∈ ct₀.view.objs, x.objid = o.objid → x = o.core := fun x hx h => hr.unique hx (core_mem ho) h
  split_ifs with hd hbase hspace hobjid
  · refine ⟨l, hr, .refl, fun _ _ => Iff.rfl, fun hk x hx h => ?_⟩
    rw [hunique x hx h]
    exact hr.clean _ (core_mem ho) hk hd
  all_goals
    refine (setCacheState_keeps _ _).seq (fun _ ct₁ h₁ => ?_) fun _ _ _ => trivial
    refine (modifyInfo_spec o.objid (fun x => { x with inodeNo := o.rootVbn }) (fun _ => rfl) ct₁).seq
      fun _ ct₂ h₂ => ?_
    rw [h₁] at h₂
    have hr₂ : Registry ct₂.view l := by
      rw [h₂]
      exact hr.setInodeNo (core_mem ho) (not_not.mp hd) _
    have honly : ct₀.view.Only (fun k => k = o.objid ∨ k < reservedObjId) ct₂.view := by
      rw [h₂]
      refine .mapObj .refl ?_ ?_
      · exact .inl rfl
      · exact fun _ => ⟨rfl, rfl, rfl⟩
  -- the numbers of the system objects are in the super block
  · exact ⟨l, hr₂.congr rfl rfl rfl, honly.trans (.of_eq rfl rfl), fun _ _ => Iff.rfl, fun hk =>
      absurd (hbase ▸ hk) (by decide)⟩
  · exact ⟨l, hr₂.congr rfl rfl rfl, honly.trans (.of_eq rfl rfl), fun _ _ => Iff.rfl, fun hk =>
      absurd (hspace ▸ hk) (by decide)⟩
  · exact ⟨l, hr₂.congr rfl rfl rfl, honly.trans (.of_eq rfl rfl), fun _ _ => Iff.rfl, fun hk =>
      absurd (hobjid ▸ hk) (by decide)⟩
  · have hk : reservedObjId ≤ o.objid := by
      rcases hr.known _ (core_mem ho) with h | h
      · simp only [baseObjId, spaceObjId, objidObjId, core_objid] at *
        omega
      · exact h
    refine (runSystemOps_spec hr₂ ops).seq fun _ ct₃ hpost => ?_
    obtain ⟨hr₃, honly₃⟩ := hpost
    -- the object is not one of those that the operations of the container change
    have ho₂ : { o.core with inodeNo := o.rootVbn } ∈ ct₂.view.objs := by
      rw [h₂]
      exact List.mem_map.mpr ⟨_, core_mem ho, if_pos rfl⟩
    have ho₃ := honly₃.of_mem ho₂ (not_lt.mpr hk)
    have hbound : o.objid < 2 ^ 64 := (hr.bound _ (core_mem ho)).trans invalidObjid_lt
    refine Ends.bind (ends_codeOf.mpr ((idUpdate_spec hr₃.tree hr₃.ids hbound).mono (fun _ ct₄ h₄ => ?_)
      fun _ _ h => h.elim))
    subst h₄
    have hset := hr₃.setId ho₃ hk
    refine ⟨setId o.objid o.rootVbn l, hset, ?_, fun x hx => ?_, fun _ x hx h => ?_⟩
    · exact honly.trans ((honly₃.mono fun _ => .inr).trans (.of_eq rfl rfl))
    · rw [mem_setId]
      constructor
      · rintro (rfl | ⟨hx, -⟩)
        · exact absurd rfl hx
        · exact hx
      · exact fun hmem => .inr ⟨hmem, hx⟩
    · have hx' : x = { o.core with inodeNo := o.rootVbn } := hr₃.unique hx ho₃ h
      subst hx'
      exact ⟨mem_setId.mpr (.inl rfl), rfl⟩

/-- After `validate_all_objects` the objid tree has the inode of every user object. -/
theorem validateAllObjects_spec (hr : Registry ct.view l) (updates : ℕ → SystemOps) :
    Ends (validateAllObjects updates) ct
      (fun _ ct' => ∃ l', Registry ct'.view l' ∧ ct.view.Only (fun _ => True) ct'.view ∧
        ∀ o ∈ ct'.view.objs, reservedObjId ≤ o.objid → Valid l' o)
      fun _ _ => True := by
  unfold validateAllObjects
  rw [ends_bind, ends_get]
  -- the user objects that are still to be validated
  have hfirst : Ends ((ct.objInfoList.filter (reservedObjId ≤ ·.objid)).forM fun o =>
      validateObjInode o.objid (updates o.objid)) ct
      (fun _ ct' => ∃ l', Registry ct'.view l' ∧ ct.view.Only (fun _ => True) ct'.view ∧
        ∀ o ∈ ct'.view.objs, reservedObjId ≤ o.objid → (∃ x ∈ ([] : List ObjectInfo), x.objid = o.objid) ∨ Valid l' o)
      fun _ _ => True := by
    refine Ends.forM (I := fun (rest : List ObjectInfo) (ct' : Container) => ∃ l', Registry ct'.view l' ∧
      ct.view.Only (fun _ => True) ct'.view ∧ ∀ o ∈ ct'.view.objs, reservedObjId ≤ o.objid →
        (∃ x ∈ rest, x.objid = o.objid) ∨ Valid l' o) ⟨l, hr, .refl, fun o ho hk => ?_⟩ fun x rest ct₁ h => ?_
    · obtain ⟨x, hx, rfl⟩ := List.mem_map.mp ho
      exact .inl ⟨x, List.mem_filter.mpr ⟨hx, by simpa using hk⟩, rfl⟩
    · obtain ⟨l₁, hr₁, honly, hvalid⟩ := h
      refine (validateObjInode_spec hr₁ x.objid _).mono (fun _ ct₂ h₂ => ?_) fun _ _ _ => trivial
      obtain ⟨l₂, h₂⟩ := h₂
      refine ⟨l₂, h₂.registry, honly.trans (h₂.only.mono fun _ _ => trivial), fun o ho hk => ?_⟩
      by_cases hx : o.objid = x.objid
      · exact .inr (h₂.valid (hx ▸ hk) o ho hx)
      · obtain ⟨o₁, ho₁, hid, hsame⟩ := h₂.only.mem ho
        obtain rfl := hsame (by rw [← hid]; exact not_or.mpr ⟨hx, not_lt.mpr hk⟩)
        rcases hvalid o ho₁ hk with ⟨y, hy, hyo⟩ | hv
        · rcases List.mem_cons.mp hy with rfl | hy
          · exact absurd hyo.symm hx
          · exact .inl ⟨y, hy, hyo⟩
        · exact .inr (hv.congr (h₂.ids _ hx))
  refine hfirst.seq fun _ ct₁ h₁ => ?_
  obtain ⟨l₁, hr₁, honly₁, hvalid₁⟩ := h₁
  refine Ends.forM (I := fun _ (ct' : Container) => ∃ l', Registry ct'.view l' ∧
    ct.view.Only (fun _ => True) ct'.view ∧ ∀ o ∈ ct'.view.objs, reservedObjId ≤ o.objid → Valid l' o)
    ⟨l₁, hr₁, honly₁, fun o ho hk => ?_⟩ fun x rest ct₂ h => ?_
  · simpa using hvalid₁ o ho hk
  · obtain ⟨l₂, hr₂, honly₂, hvalid₂⟩ := h
    refine (validateObjInode_spec hr₂ x.objid _).mono (fun _ ct₃ h₃ => ?_) fun _ _ _ => trivial
    obtain ⟨l₃, h₃⟩ := h₃
    refine ⟨l₃, h₃.registry, honly₂.trans (h₃.only.mono fun _ _ => trivial), fun o ho hk => ?_⟩
    by_cases hx : o.objid = x.objid
    · exact h₃.valid (hx ▸ hk) o ho hx
    · obtain ⟨o₂, ho₂, hid, hsame⟩ := h₃.only.mem ho
      obtain rfl := hsame (by rw [← hid]; exact not_or.mpr ⟨hx, not_lt.mpr hk⟩)
      exact (hvalid₂ o ho₂ hk).congr (h₃.ids _ hx)

theorem flushContainerCache_spec (ct : Container) :
    Ends flushContainerCache ct (fun _ ct' => ct'.view = { ct.view with dirty := false }) fun _ _ => True := by
  unfold flushContainerCache
  rw [ends_bind, ends_get]
  refine (Keeps.forM flushContainerDirtyCache_keeps _).seq (fun _ ct₁ h₁ => ?_) fun _ _ _ => trivial
  rw [ends_modify, ← h₁]
  rfl

theorem cleanObjRootCache_fields (o : ObjectInfo) :
    (cleanObjRootCache o).objid = o.objid ∧ (cleanObjRootCache o).objHndList = o.objHndList ∧
      (cleanObjRootCache o).refCnt = o.refCnt ∧ (cleanObjRootCache o).rootVbn = o.rootVbn ∧
      (cleanObjRootCache o).inodeNo = o.inodeNo := by
  unfold cleanObjRootCache
  split_ifs <;> exact ⟨rfl, rfl, rfl, rfl, rfl⟩

theorem cleanObjRootCache_core (o : ObjectInfo) : (cleanObjRootCache o).core = cleanObjRootCache o.core := by
  unfold cleanObjRootCache
  by_cases h : o.rootState = .dirty
  · rw [if_pos h, if_pos (by exact h)]
    rfl
  · rw [if_neg h, if_neg (by exact h)]

/-- A commit leaves every user object valid. -/
theorem commitContainerModification_spec (hr : Registry ct.view l) (updates : ℕ → SystemOps) :
    Ends (commitContainerModification updates) ct
      (fun _ ct' => ∃ l', Registry ct'.view l' ∧ ct.view.Only (fun _ => True) ct'.view ∧
        ∀ o ∈ ct'.view.objs, reservedObjId ≤ o.objid → Valid l' o)
      fun _ _ => True := by
  unfold commitContainerModification
  refine (validateAllObjects_spec hr updates).seq fun _ ct₁ h₁ => ?_
  obtain ⟨l', hr', honly, hvalid⟩ := h₁
  refine (flushContainerCache_spec ct₁).seq fun _ ct₂ h₂ => ?_
  unfold cleanAllObjRootCache
  rw [ends_modify]
  have hview : ({ ct₂ with objInfoList := ct₂.objInfoList.map cleanObjRootCache } : Container).view =
      { ct₂.view with objs := ct₂.view.objs.map cleanObjRootCache } := by
    unfold Container.view
    simp only [List.map_map, View.mk.injEq, and_true]
    exact List.map_congr_left fun o _ => cleanObjRootCache_core o
  rw [hview, h₂]
  refine ⟨l', Registry.congr (hr'.mapObjs (f := cleanObjRootCache) (fun o => (cleanObjRootCache_fields o).1)
    (fun o _ => (cleanObjRootCache_fields o).2.2.2.1)
    fun o ho hk _ => ?_) rfl rfl rfl, honly.trans ⟨rfl, cleanObjRootCache, rfl, fun o => ?_⟩, ?_⟩
  · rw [(cleanObjRootCache_fields o).2.2.2.2]
    exact hvalid o ho hk
  · exact ⟨(cleanObjRootCache_fields o).1, (cleanObjRootCache_fields o).2.1, (cleanObjRootCache_fields o).2.2.1, fun h => absurd trivial h⟩
  · refine List.forall_mem_map.mpr fun o ho hk => ?_
    rw [(cleanObjRootCache_fields o).1] at hk
    obtain ⟨hmem, hno⟩ := hvalid o ho hk
    refine ⟨?_, ?_⟩
    · rw [(cleanObjRootCache_fields o).1, (cleanObjRootCache_fields o).2.2.2.1]
      exact hmem
    · rw [(cleanObjRootCache_fields o).2.2.2.1, (cleanObjRootCache_fields o).2.2.2.2]
      exact hno

end IndexFs.Object
