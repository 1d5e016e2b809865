import IndexFs.Object.Handles

/-!
# What the calls do to objects and handles

Each call leads from a state in which the registry is in order to another one, and
gives out or takes back the handle that it names.

* `ofsCreateObject_spec`, `ofsOpenObject_spec`, `ofsCloseObject_spec`
* `createSystemObjects_spec`, `openSystemObjects_spec`: the first state of a run.
-/

namespace IndexFs.Object

open IndexFs.Collate IndexFs.Space

variable {ct ct' : Container} {v v' : View} {l : List (ℕ × ℕ)} {objid : ℕ} {h : HandlePtr}

/-! ## Registering an object -/

/-- An object that was just registered. -/
def openedInfo (objid inodeNo : ℕ) (inodeCache : CachePtr) (rootState : Tree.CacheStatus) (h : HandlePtr) :
    ObjectInfo :=
  { objid, inodeNo, inodeCache, rootVbn := inodeNo, rootState, caches := [], objHndList := [h], refCnt := 1 }

theorem getObjectInfo_spec (objid : ℕ) (ct : Container) :
    Ends (getObjectInfo objid) ct (fun _ ct' => (∀ o ∈ ct.view.objs, o.objid ≠ objid) ∧
      ct'.view = ct.view.insert (initObjectInfo objid)) fun _ _ => True := by
  unfold getObjectInfo
  rw [ends_bind, ends_get]
  dsimp only
  split_ifs with hany
  · trivial
  · rw [ends_modify]
    refine ⟨List.forall_mem_map.mpr fun o ho => ?_, ?_⟩
    · simp only [List.any_eq_true, decide_eq_true_eq, not_exists, not_and] at hany
      exact hany o ho
    · unfold Container.view View.insert
      simp only [View.mk.injEq, and_true, List.map_append, List.map_cons, List.takeWhile_map, List.dropWhile_map]
      rfl

theorem getObjectHandle_spec (objid : ℕ) (ct : Container) :
    Ends (getObjectHandle objid) ct (fun h ct' => h = ct.view.nextHandle ∧ ct'.view = ct.view.addHandle objid)
      fun _ _ => True := by
  unfold getObjectHandle
  rw [ends_bind, ends_get, ends_bind, ends_modify]
  refine (modifyInfo_spec objid (fun o =>
    { o with objHndList := o.objHndList ++ [ct.nextHandle], refCnt := uint32 (o.refCnt + 1) }) (fun _ => rfl)
    _).seq fun _ ct' h' => ?_
  exact ⟨rfl, h'⟩

/-- The first handle of a new object. -/
theorem addHandle_insert {o : ObjectInfo} (hnew : ∀ x ∈ v.objs, x.objid ≠ o.objid) (hlist : o.objHndList = [])
    (hcnt : o.refCnt = 0) :
    (v.insert o).addHandle o.objid = { v with nextHandle := v.nextHandle + 1 }.insert
      { o with objHndList := [v.nextHandle], refCnt := 1 } := by
  have hview := View.mapObj_insert (v := { v with nextHandle := v.nextHandle + 1 }) (o := o) hnew
    (f := fun o => { o with objHndList := o.objHndList ++ [v.nextHandle], refCnt := uint32 (o.refCnt + 1) }) rfl
  rw [hlist, hcnt] at hview
  exact hview

theorem createObjectAtInode_spec (objid inodeNo : ℕ) (ct : Container) :
    Ends (createObjectAtInode objid inodeNo) ct
      (fun h ct' => (∀ o ∈ ct.view.objs, o.objid ≠ objid) ∧ h = ct.view.nextHandle ∧ ∃ p, ct'.view =
        { ct.view with nextHandle := ct.view.nextHandle + 1 }.insert (openedInfo objid inodeNo p .dirty h))
      fun _ _ => True := by
  unfold createObjectAtInode
  refine (getObjectInfo_spec objid ct).seq fun _ ct₁ hpost => ?_
  obtain ⟨hnew, h₁⟩ := hpost
  refine (allocObjCache_keeps _ _).seq (fun p ct₂ h₂ => ?_) fun _ _ _ => trivial
  refine (modifyInfo_spec objid (fun o => { o with inodeCache := p, inodeNo, rootVbn := inodeNo }) (fun _ => rfl)
    ct₂).seq fun _ ct₃ h₃ => ?_
  refine (setCacheState_keeps _ _).seq (fun _ ct₄ h₄ => ?_) fun _ _ _ => trivial
  refine (modifyInfo_spec objid (fun o => { o with rootState := .dirty }) (fun _ => rfl) ct₄).seq
    fun _ ct₅ h₅ => ?_
  refine (getObjectHandle_spec objid ct₅).mono (fun h ct₆ h₆ => ?_) fun _ _ _ => trivial
  obtain ⟨rfl, h₆⟩ := h₆
  let o : ObjectInfo := { initObjectInfo objid with inodeCache := p, inodeNo, rootVbn := inodeNo, rootState := .dirty }
  have hview : ct₅.view = ct.view.insert o := by
    rw [h₅, h₄, h₃, h₂, h₁]
    exact (congrArg (View.mapObj · objid _) (View.mapObj_insert hnew rfl)).trans (View.mapObj_insert hnew rfl)
  refine ⟨hnew, by rw [hview]; rfl, p, ?_⟩
  rw [h₆, hview]
  exact addHandle_insert hnew rfl rfl

theorem openObject_spec (objid inodeNo : ℕ) (ct : Container) :
    Ends (openObject objid inodeNo) ct
      (fun h ct' => (∀ o ∈ ct.view.objs, o.objid ≠ objid) ∧ h = ct.view.nextHandle ∧ ∃ p, ct'.view =
        { ct.view with nextHandle := ct.view.nextHandle + 1 }.insert (openedInfo objid inodeNo p .empty h))
      fun _ _ => True := by
  unfold openObject recoverObjInode
  refine (getObjectInfo_spec objid ct).seq fun _ ct₁ hpost => ?_
  obtain ⟨hnew, h₁⟩ := hpost
  have hrecover : Ends (do
      let p ← indexBlockRead2 objid inodeNo
      modifyInfo objid fun o => { o with inodeCache := p, inodeNo, rootVbn := inodeNo }
      setCacheState p .clean) ct₁
      (fun _ ct' => ∃ p, ct'.view = ct.view.insert
        { initObjectInfo objid with inodeCache := p, inodeNo, rootVbn := inodeNo }) fun _ _ => True := by
    refine (indexBlockRead2_keeps _ _).seq (fun p ct₂ h₂ => ?_) fun _ _ _ => trivial
    refine (modifyInfo_spec objid (fun o => { o with inodeCache := p, inodeNo, rootVbn := inodeNo }) (fun _ => rfl)
      ct₂).seq fun _ ct₃ h₃ => ?_
    refine (setCacheState_keeps _ _ ct₃).mono (fun _ ct₄ h₄ => ⟨p, ?_⟩) fun _ _ _ => trivial
    rw [h₄, h₃, h₂, h₁]
    exact View.mapObj_insert hnew rfl
  refine hrecover.seq fun _ ct₂ hpost => ?_
  obtain ⟨p, h₂⟩ := hpost
  refine (getObjectHandle_spec objid ct₂).mono (fun h ct₃ h₃ => ?_) fun _ _ _ => trivial
  obtain ⟨rfl, h₃⟩ := h₃
  refine ⟨hnew, by rw [h₂]; rfl, p, ?_⟩
  rw [h₃, h₂]
  exact addHandle_insert hnew rfl rfl

/-- The inode of a new object is in a block that was free. -/
theorem Registry.create (hr : Registry v l) {v₁ v₂ : View} {n : ℕ} {p : CachePtr} (hfree : v.use n = none)
    (hn : n < 2 ^ 64) (hnew : ∀ o ∈ v₁.objs, o.objid ≠ objid) (hknown : objid ≤ objidObjId ∨ reservedObjId ≤ objid)
    (hbound : objid < invalidObjid) (habsent : ∀ n, (objid, n) ∉ l) (h₁ : v₁ = v.setUse n (some (.inode objid)))
    (h₂ : v₂ = { v₁ with nextHandle := v₁.nextHandle + 1 }.insert (openedInfo objid n p .dirty v₁.nextHandle)) :
    Registry v₂ l ∧ Takes v v₂ objid v₁.nextHandle := by
  subst h₁ h₂
  refine ⟨(hr.insert (openedInfo objid n p .dirty v.nextHandle) (Function.update v.use n (some (.inode objid)))
    hnew hknown hbound (fun w u hw => ?_) (fun w k hk => ?_) (by exact Function.update_self _ _ _)
    (fun hk w hw => ?_) fun _ hd => absurd rfl hd).congr rfl rfl rfl,
    Takes.insert (v := v) (openedInfo objid n p .dirty v.nextHandle) _ hnew rfl rfl⟩
  · by_cases hwn : w = n
    · exact hwn ▸ hn
    · rw [Function.update_of_ne hwn] at hw
      exact hr.numbers w u hw
  · by_cases hwn : w = n
    · subst hwn
      rw [Function.update_self, hfree]
      simpa using fun h => hk h.symm
    · rw [Function.update_of_ne hwn]
  · by_contra hwn
    replace hwn : w ≠ n := hwn
    rw [Function.update_of_ne hwn] at hw
    rcases hr.inode w objid hk hw with ⟨o, ho, hid, -⟩ | ⟨-, hmem⟩
    · exact hnew o ho hid
    · exact habsent w hmem

/-- The inode of an object that is opened is in the block that its entry names. -/
theorem Registry.open (hr : Registry v l) {v₁ : View} {n : ℕ} {p : CachePtr} (huse : v.use n = some (.inode objid))
    (hnew : ∀ o ∈ v.objs, o.objid ≠ objid) (hknown : objid ≤ objidObjId ∨ reservedObjId ≤ objid)
    (hbound : objid < invalidObjid) (hmem : reservedObjId ≤ objid → (objid, n) ∈ l)
    (h₁ : v₁ = { v with nextHandle := v.nextHandle + 1 }.insert (openedInfo objid n p .empty v.nextHandle)) :
    Registry v₁ l ∧ Takes v v₁ objid v.nextHandle := by
  subst h₁
  refine ⟨(hr.insert (openedInfo objid n p .empty v.nextHandle) v.use hnew hknown hbound hr.numbers
    (fun _ _ _ => Iff.rfl) huse (fun hk w hw => ?_) fun hk _ => ⟨hmem hk, rfl⟩).congr rfl rfl rfl,
    Takes.insert (openedInfo objid n p .empty v.nextHandle) v.use hnew rfl rfl⟩
  rcases hr.inode w objid hk hw with ⟨o, ho, hid, -⟩ | ⟨-, hw⟩
  · exact absurd hid (hnew o ho)
  · exact hr.ids.unique hw (hmem hk)

/-- Handles are not looked at. -/
theorem Registry.mapHandles (hr : Registry v l) (objid : ℕ) (list : ObjectInfo → List HandlePtr)
    (cnt : ObjectInfo → ℕ) :
    Registry (v.mapObj objid fun o => { o with objHndList := list o, refCnt := cnt o }) l := by
  refine hr.mapObjs (atObj_objid ?_) (fun x _ => ?_) fun x hx hk hd => ?_
  · exact fun _ => rfl
  · unfold atObj
    split_ifs <;> rfl
  · unfold atObj at hd ⊢
    split_ifs at hd ⊢ <;> exact hr.clean x hx hk hd

/-! ## Calls -/

theorem createObject_spec (hr : Registry ct.view l) (hknown : objid ≤ objidObjId ∨ reservedObjId ≤ objid)
    (hbound : objid < invalidObjid) (habsent : ∀ n, (objid, n) ∉ l) (inodeNo : ℕ) (ops : SystemOps) :
    Ends (createObject objid inodeNo ops) ct
      (fun h ct' => Registry ct'.view l ∧ Takes ct.view ct'.view objid h ∧
        ∃ o ∈ ct'.view.objs, o.objid = objid ∧ o.inodeNo = o.rootVbn)
      fun _ _ => True := by
  unfold createObject
  refine (runSystemOps_spec hr ops).seq fun _ ct₁ hpost => ?_
  obtain ⟨hr₁, honly⟩ := hpost
  refine (allocBlock_spec _ ct₁).seq fun _ ct₂ hpost => ?_
  obtain ⟨hlt, hfree, h₂⟩ := hpost
  refine (createObjectAtInode_spec objid inodeNo ct₂).mono (fun h ct₃ h₃ => ?_) fun _ _ _ => trivial
  obtain ⟨hnew, rfl, p, h₃⟩ := h₃
  obtain ⟨hr₃, htakes⟩ := hr₁.create hfree hlt hnew hknown hbound habsent h₂ h₃
  refine ⟨hr₃, .of_only honly htakes, openedInfo objid inodeNo p .dirty ct₂.view.nextHandle, ?_, rfl, rfl⟩
  rw [h₃]
  exact mem_insert.mpr (.inl rfl)

/-- A new object is registered and gets an entry in the objid tree. -/
theorem ofsCreateObject_spec (hr : Registry ct.view l) (hobjid : objid < 2 ^ 64) (inodeNo : ℕ) (search : List ℕ)
    (alloc insert : SystemOps) :
    Ends (ofsCreateObject objid inodeNo search alloc insert) ct
      (fun h ct' => (∀ o ∈ ct.view.objs, o.objid ≠ objid) ∧
        ∃ l', Registry ct'.view l' ∧ Takes ct.view ct'.view objid h)
      fun _ _ => True := by
  unfold ofsCreateObject
  rw [ends_bind, ends_assertThat]
  refine ⟨fun hvalid => ?_, fun _ => trivial⟩
  have hbound : objid < invalidObjid := by
    unfold invalidObjid at hvalid ⊢
    omega
  split_ifs with hreserved
  · trivial
  · rw [ends_bind, ends_get]
    have hk := not_lt.mp hreserved
    split_ifs with hany
    · trivial
    · have hnew : ∀ o ∈ ct.view.objs, o.objid ≠ objid := by
        refine List.forall_mem_map.mpr fun o ho => ?_
        simp only [List.any_eq_true, decide_eq_true_eq, not_exists, not_and] at hany
        exact hany o ho
      refine (readIdBlocks_keeps search).seq (fun _ ct₁ h₁ => ?_) fun _ _ _ => trivial
      rw [← h₁] at hr hnew ⊢
      refine Ends.bind (ends_codeOf.mpr ((idSearch_spec hr.tree hr.ids
        (osBstrToU64_u64Bytes hobjid)).mono (fun _ _ _ => trivial) fun e ct₂ hpost => ?_))
      obtain ⟨rfl, rfl, habsent⟩ := hpost
      rw [if_neg (by simp [ErrorCode.stops])]
      dsimp only
      rw [if_neg (by simp)]
      refine (createObject_spec hr (.inr hk) hbound habsent inodeNo alloc).seq fun h ct₃ hpost => ?_
      obtain ⟨hr₃, htakes, o, ho, rfl, hno⟩ := hpost
      refine (runSystemOps_spec hr₃ insert).seq fun _ ct₄ hpost => ?_
      obtain ⟨hr₄, honly⟩ := hpost
      have ho₄ := honly.of_mem ho (not_lt.mpr hk)
      refine (getInfo_spec o.objid ct₄).seq fun o' ct₅ hpost => ?_
      obtain ⟨rfl, ho', hid⟩ := hpost
      obtain rfl : o'.core = o := hr₄.unique (core_mem ho') ho₄ hid
      refine (idInsert_spec hr₄.tree hr₄.ids hobjid habsent).seq' (fun _ ct₆ h₆ => ?_) fun _ _ h => h.elim
      subst h₆
      have hset := hr₄.setId ho₄ hk
      rw [← hno] at hset
      exact ⟨hnew, _, hset, (htakes.only honly).only (p := fun _ => True) (.of_eq rfl rfl)⟩

/-- An object that is open gets another handle; else it is registered. -/
theorem ofsOpenObject_spec (hr : Registry ct.view l) (hobjid : objid < 2 ^ 64) (search : List ℕ) :
    Ends (ofsOpenObject objid search) ct
      (fun h ct' => Registry ct'.view l ∧ Takes ct.view ct'.view objid h) fun _ _ => True := by
  unfold ofsOpenObject
  rw [ends_bind, ends_get]
  split_ifs with hany
  · refine (getObjectHandle_spec objid ct).mono (fun h ct₁ hpost => ?_) fun _ _ _ => trivial
    obtain ⟨rfl, h₁⟩ := hpost
    simp only [List.any_eq_true, decide_eq_true_eq] at hany
    obtain ⟨o, ho, hid⟩ := hany
    rw [h₁]
    have hr' : Registry { ct.view with nextHandle := ct.view.nextHandle + 1 } l := hr.congr rfl rfl rfl
    exact ⟨hr'.mapHandles objid _ _, .addHandle ⟨_, core_mem ho, hid⟩⟩
  · refine (readIdBlocks_keeps search).seq (fun _ ct₁ h₁ => ?_) fun _ _ _ => trivial
    rw [← h₁] at hr ⊢
    refine (idSearch_spec hr.tree hr.ids (osBstrToU64_u64Bytes hobjid)).seq' (fun value ct₂ hpost => ?_)
      fun _ _ _ => trivial
    obtain ⟨rfl, n, hn, rfl⟩ := hpost
    rw [osBstrToU64_osU64ToBstr (hr.ids.bound _ hn).2, ends_bind, ends_fromExcept_ok]
    refine (openObject_spec objid n ct₂).mono (fun h ct₃ hpost => ?_) fun _ _ _ => trivial
    obtain ⟨hnew, rfl, p, h₃⟩ := hpost
    obtain ⟨hk, hbound⟩ := hr.user _ hn
    exact hr.open (hr.closed _ hn fun o ho => hnew o ho) hnew (.inr hk) hbound (fun _ => hn) h₃

theorem putObjectInfo_spec (objid : ℕ) (ct : Container) :
    Ends (putObjectInfo objid) ct
      (fun _ ct' => ct'.view = { ct.view with objs := ct.view.objs.filter (·.objid ≠ objid) }) fun _ _ => True := by
  unfold putObjectInfo
  refine (releaseObjAllCache_keeps objid).seq (fun _ ct₁ h₁ => ?_) fun _ _ _ => trivial
  rw [ends_modify, ← h₁]
  unfold Container.view
  simp only [View.mk.injEq, and_true, List.filter_map]
  rfl

theorem closeObject_spec (hr : Registry ct.view l) (objid : ℕ) (update : SystemOps) :
    Ends (closeObject objid update) ct
      (fun _ ct' => ∃ l', Registry ct'.view l' ∧ ∃ v, ct.view.Only (fun _ => True) v ∧
        ct'.view = { v with objs := v.objs.filter (·.objid ≠ objid) })
      fun _ _ => True := by
  unfold closeObject
  refine (validateObjInode_spec hr objid update).seq fun _ ct₁ hpost => ?_
  obtain ⟨l', hpost⟩ := hpost
  refine (putObjectInfo_spec objid ct₁).mono (fun _ ct₂ h₂ => ⟨l', ?_, ct₁.view, ?_, h₂⟩) fun _ _ _ => trivial
  · rw [h₂]
    refine hpost.registry.remove fun o ho hid hk => ?_
    have hvalid := (hpost.valid hk o ho hid).1
    rwa [hid] at hvalid
  · exact hpost.only.mono fun _ _ => trivial

/-- The last handle of an object closes it. -/
theorem ofsCloseObject_spec (hr : Registry ct.view l) (h : HandlePtr) (update : SystemOps) :
    Ends (ofsCloseObject h update) ct (fun _ ct' => ∃ l', Registry ct'.view l' ∧ Gives ct.view ct'.view h)
      fun _ _ => True := by
  unfold ofsCloseObject
  rw [ends_bind, ends_get]
  cases hfind : ct.objInfoList.find? (h ∈ ·.objHndList) with
  | none => trivial
  | some o =>
    have ho := core_mem (List.mem_of_find?_eq_some hfind)
    have hmem : h ∈ o.objHndList := by simpa using List.find?_some hfind
    dsimp only
    split_ifs with hzero
    · trivial
    · unfold putObjectHandle
      refine (modifyInfo_spec o.objid (fun o =>
        { o with objHndList := o.objHndList.erase h, refCnt := uint32 (o.refCnt + (2 ^ 32 - 1)) }) (fun _ => rfl)
        ct).seq fun _ ct₁ h₁ => ?_
      have hr₁ : Registry ct₁.view l := by
        rw [h₁]
        exact hr.mapHandles o.objid _ _
      have hput : ct₁.view = ct.view.putHandle o.core.objid h := h₁
      refine (getInfo_spec o.objid ct₁).seq fun x ct₂ hpost => ?_
      obtain ⟨rfl, hx, hid⟩ := hpost
      have hx' := core_mem hx
      rw [hput] at hx'
      split_ifs with hlast
      · refine (closeObject_spec hr₁ o.objid update).mono (fun _ ct₃ hpost => ?_) fun _ _ _ => trivial
        obtain ⟨l', hr₃, v, honly, h₃⟩ := hpost
        rw [hput] at honly
        refine ⟨l', hr₃, ?_⟩
        rw [h₃]
        exact Gives.remove (o := o.core) ho hmem hx' hid hlast honly
      · rw [ends_pure, hput]
        rw [hput] at hr₁
        exact ⟨l, hr₁, Gives.putHandle (o := o.core) ho hmem hx' hid hlast⟩

/-! ## The container -/

theorem Container.Fresh.registry (hct : ct.Fresh) : Registry ct.view [] ∧ Held ct.view [] := by
  have hobjs : ct.view.objs = [] := by
    unfold Container.view
    rw [hct.objInfoList, List.map_nil]
  have huse : ∀ n, ct.view.use n = none := hct.use
  refine ⟨⟨hct.idTree, ⟨by simp, .nil⟩, by simp, ?_, ?_, ?_, ?_, ?_, ?_, by simp, ?_⟩,
    ⟨⟨?_, ?_, by simp, by simp, .nil⟩, ?_⟩⟩
  all_goals simp [hobjs, huse]

theorem Container.Stored.registry {ids : List (ℕ × ℕ)} (hct : ct.Stored ids) :
    Registry ct.view ids ∧ Held ct.view [] := by
  have hobjs : ct.view.objs = [] := by
    unfold Container.view
    rw [hct.objInfoList, List.map_nil]
  have hinode : ∀ x ∈ ids, ct.view.use x.2 = some (.inode x.1) := fun x hx =>
    (hct.inode x.2 x.1 (hct.user x hx).1).mpr hx
  have hids : IdsOk ids := ⟨fun x hx => ⟨(hct.user x hx).2.trans invalidObjid_lt, hct.numbers _ _ (hinode x hx)⟩,
    hct.sorted⟩
  refine ⟨⟨hct.idTree, hids, hct.user, ?_, ?_, ?_, hct.numbers, ?_, ?_, fun x hx _ => hinode x hx,
    fun n k hk hn => .inr ⟨?_, (hct.inode n k hk).mp hn⟩⟩, ⟨⟨?_, ?_, by simp, by simp, .nil⟩, ?_⟩⟩
  all_goals simp [hobjs]

theorem createSystemObjects_spec (hct : ct.Fresh) (inodeNo : ℕ) (ops : SystemOps) :
    Ends (createSystemObjects inodeNo ops) ct
      (fun hs ct' => hs.length = 3 ∧ Registry ct'.view [] ∧ Held ct'.view (systemHandles hs)) fun _ _ => True := by
  obtain ⟨hr, hheld⟩ := hct.registry
  unfold createSystemObjects
  refine (allocBlock_spec _ ct).seq fun _ ct₁ hpost => ?_
  obtain ⟨hlt₁, hfree₁, h₁⟩ := hpost
  refine (createObjectAtInode_spec baseObjId baseObjInode ct₁).seq fun base ct₂ hpost => ?_
  obtain ⟨hnew₁, rfl, p₁, h₂⟩ := hpost
  obtain ⟨hr₂, ht₂⟩ := hr.create hfree₁ hlt₁ hnew₁ (.inl (by decide)) (by decide) (by simp) h₁ h₂
  refine (runOp_spec hr₂ .setName).seq fun _ ct₃ hpost => ?_
  obtain ⟨hr₃, honly₃⟩ := hpost
  have hheld₃ := (ht₂.only honly₃) _ hheld
  refine (allocBlock_spec _ ct₃).seq fun _ ct₄ hpost => ?_
  obtain ⟨hlt₂, hfree₂, h₄⟩ := hpost
  refine (createObjectAtInode_spec spaceObjId spaceObjInode ct₄).seq fun space ct₅ hpost => ?_
  obtain ⟨hnew₂, rfl, p₂, h₅⟩ := hpost
  obtain ⟨hr₅, ht₅⟩ := hr₃.create hfree₂ hlt₂ hnew₂ (.inl (by decide)) (by decide) (by simp) h₄ h₅
  refine (runOp_spec hr₅ .setName).seq fun _ ct₆ hpost => ?_
  obtain ⟨hr₆, honly₆⟩ := hpost
  have hheld₆ := (ht₅.only honly₆) _ hheld₃
  refine (createObject_spec hr₆ (.inl le_rfl) (by decide) (by simp) inodeNo ops).seq fun objid ct₇ hpost => ?_
  obtain ⟨hr₇, ht₇, -⟩ := hpost
  refine (runOp_spec hr₇ .setName).seq fun _ ct₈ hpost => ?_
  obtain ⟨hr₈, honly₈⟩ := hpost
  have hheld₈ := (ht₇.only honly₈) _ hheld₆
  rw [ends_bind, ends_modify]
  exact ⟨rfl, hr₈.congr rfl rfl rfl, hheld₈.only (p := fun _ => True) (.of_eq rfl rfl)⟩

theorem openSystemObjects_spec {ids : List (ℕ × ℕ)} (hct : ct.Stored ids) :
    Ends openSystemObjects ct
      (fun hs ct' => hs.length = 3 ∧ Registry ct'.view ids ∧ Held ct'.view (systemHandles hs)) fun _ _ => True := by
  obtain ⟨hr, hheld⟩ := hct.registry
  unfold openSystemObjects
  rw [ends_bind, ends_get]
  refine (openObject_spec baseObjId _ ct).seq fun base ct₁ hpost => ?_
  obtain ⟨hnew, rfl, p₁, h₁⟩ := hpost
  obtain ⟨hr₁, ht₁⟩ := hr.open hct.base hnew (.inl (by decide)) (by decide) (fun h => absurd h (by decide)) h₁
  have hspace : ct₁.view.use ct₁.view.spaceInodeNo = some (.inode spaceObjId) := by
    rw [h₁]
    exact hct.space
  have hobjid₁ : ct₁.view.use ct₁.view.objidInodeNo = some (.inode objidObjId) := by
    rw [h₁]
    exact hct.objid
  rw [ends_bind, ends_get]
  refine (openObject_spec spaceObjId _ ct₁).seq fun space ct₂ hpost => ?_
  obtain ⟨hnew, rfl, p₂, h₂⟩ := hpost
  obtain ⟨hr₂, ht₂⟩ := hr₁.open hspace hnew (.inl (by decide)) (by decide) (fun h => absurd h (by decide)) h₂
  have hobjid₂ : ct₂.view.use ct₂.view.objidInodeNo = some (.inode objidObjId) := by
    rw [h₂]
    exact hobjid₁
  rw [ends_bind, ends_get]
  refine (openObject_spec objidObjId _ ct₂).seq fun objid ct₃ hpost => ?_
  obtain ⟨hnew, rfl, p₃, h₃⟩ := hpost
  obtain ⟨hr₃, ht₃⟩ := hr₂.open hobjid₂ hnew (.inl le_rfl) (by decide) (fun h => absurd h (by decide)) h₃
  exact ⟨rfl, hr₃, ht₃ _ (ht₂ _ (ht₁ _ hheld))⟩

end IndexFs.Object
