import IndexFs.Object.Operations

/-!
# Handles of the objects

`Held` relates the handle lists and the reference counts of the objects to the
handles that were given out. The changes that a call makes to it are `Takes` and
`Gives`: these hold for whatever handles there are.

A reference count has 32 bits.
-/

namespace IndexFs.Object

open IndexFs.Collate IndexFs.Space

variable {v v' v'' : View} {hs : List (ℕ × HandlePtr)} {objid k : ℕ} {h : HandlePtr}

/-! ## Lists of handles -/

theorem mem_handlesOf : h ∈ handlesOf k hs ↔ (k, h) ∈ hs := by
  unfold handlesOf
  rw [List.mem_map]
  constructor
  · rintro ⟨⟨j, h'⟩, hx, rfl⟩
    obtain ⟨hmem, hj⟩ := List.mem_filter.mp hx
    obtain rfl : j = k := by simpa using hj
    exact hmem
  · exact fun hx => ⟨(k, h), List.mem_filter.mpr ⟨hx, by simp⟩, rfl⟩

theorem handlesOf_append (hs hs' : List (ℕ × HandlePtr)) :
    handlesOf k (hs ++ hs') = handlesOf k hs ++ handlesOf k hs' := by
  unfold handlesOf
  rw [List.filter_append, List.map_append]

theorem handlesOf_add_self : handlesOf k (hs ++ [(k, h)]) = handlesOf k hs ++ [h] := by
  rw [handlesOf_append]
  simp [handlesOf]

theorem handlesOf_add_of_ne (hk : objid ≠ k) : handlesOf k (hs ++ [(objid, h)]) = handlesOf k hs := by
  rw [handlesOf_append]
  simp [handlesOf, hk]

theorem handlesOf_eq_nil (hopen : ∀ x ∈ hs, x.1 ≠ k) : handlesOf k hs = [] := by
  refine List.eq_nil_iff_forall_not_mem.mpr fun h hh => ?_
  exact hopen _ (mem_handlesOf.mp hh) rfl

theorem handlesOf_erase_self (hnodup : (hs.map Prod.snd).Nodup) :
    handlesOf k (hs.erase (k, h)) = (handlesOf k hs).erase h := by
  have hsub : (handlesOf k hs).Nodup := hnodup.sublist (List.filter_sublist.map _)
  rw [(hnodup.of_map _).erase_eq_filter, hsub.erase_eq_filter]
  unfold handlesOf
  rw [List.filter_comm, List.filter_map, List.filter_filter, List.filter_filter]
  congr 1
  refine List.filter_congr fun x _ => ?_
  obtain ⟨j, h'⟩ := x
  by_cases hj : j = k
  · subst hj
    simp [bne, Prod.ext_iff]
  · simp [hj]

theorem handlesOf_erase_of_ne (hk : objid ≠ k) : handlesOf k (hs.erase (objid, h)) = handlesOf k hs := by
  unfold handlesOf
  congr 1
  induction hs with
  | nil => rfl
  | cons x hs ih =>
    rw [List.erase_cons]
    split_ifs with hx
    · obtain rfl : x = (objid, h) := by simpa using hx
      rw [List.filter_cons_of_neg (by simpa using hk)]
    · rw [List.filter_cons, List.filter_cons, ih]

/-! ## Handles of the objects -/

/-- The objects have the handles `hs`, and each of these has its object. -/
structure Handles (v : View) (hs : List (ℕ × HandlePtr)) : Prop where
  lists : ∀ o ∈ v.objs, o.objHndList = handlesOf o.objid hs
  counts : ∀ o ∈ v.objs, o.refCnt = uint32 (handlesOf o.objid hs).length
  opened : ∀ x ∈ hs, ∃ o ∈ v.objs, o.objid = x.1
  fresh : ∀ x ∈ hs, x.2 < v.nextHandle
  nodup : (hs.map Prod.snd).Nodup

theorem Handles.only {p : ℕ → Prop} (hh : Handles v hs) (honly : v.Only p v') : Handles v' hs := by
  obtain ⟨hnext, f, hf, hf'⟩ := honly
  refine ⟨?_, ?_, fun x hx => ?_, by rw [hnext]; exact hh.fresh, hh.nodup⟩
  · rw [hf]
    refine List.forall_mem_map.mpr fun o ho => ?_
    rw [(hf' o).2.1, (hf' o).1]
    exact hh.lists o ho
  · rw [hf]
    refine List.forall_mem_map.mpr fun o ho => ?_
    rw [(hf' o).2.2.1, (hf' o).1]
    exact hh.counts o ho
  · obtain ⟨o, ho, hox⟩ := hh.opened x hx
    exact ⟨f o, by rw [hf]; exact List.mem_map_of_mem ho, (hf' o).1.trans hox⟩

theorem Handles.congr (hh : Handles v hs) (hobjs : v'.objs = v.objs) (hnext : v'.nextHandle = v.nextHandle) :
    Handles v' hs := hh.only (p := fun _ => True) (.of_eq hobjs hnext)

/-- A new handle is not one of the old ones. -/
theorem Handles.nodup_add (hh : Handles v hs) : ((hs ++ [(k, v.nextHandle)]).map Prod.snd).Nodup := by
  rw [List.map_append]
  refine List.nodup_append'.mpr ⟨hh.nodup, by simp, fun h hmem hnew => ?_⟩
  obtain ⟨x, hx, rfl⟩ := List.mem_map.mp hmem
  simp only [List.map_cons, List.map_nil, List.mem_singleton] at hnew
  exact (hh.fresh x hx).ne hnew

/-- What `get_object_handle` does. -/
def View.addHandle (v : View) (objid : ℕ) : View :=
  { v with nextHandle := v.nextHandle + 1 }.mapObj objid fun o =>
    { o with objHndList := o.objHndList ++ [v.nextHandle], refCnt := uint32 (o.refCnt + 1) }

/-- An open object gets another handle. -/
theorem Handles.addHandle (hh : Handles v hs) (hopen : ∃ o ∈ v.objs, o.objid = objid) :
    Handles (v.addHandle objid) (hs ++ [(objid, v.nextHandle)]) := by
  refine ⟨List.forall_mem_map.mpr fun o ho => ?_, List.forall_mem_map.mpr fun o ho => ?_, fun x hx => ?_,
    fun x hx => ?_, hh.nodup_add⟩
  · unfold atObj
    split_ifs with hid
    · subst hid
      rw [handlesOf_add_self, ← hh.lists o ho]
    · rw [handlesOf_add_of_ne (Ne.symm hid), hh.lists o ho]
  · unfold atObj
    split_ifs with hid
    · subst hid
      dsimp only
      rw [handlesOf_add_self, hh.counts o ho, List.length_append]
      simp [uint32]
    · rw [handlesOf_add_of_ne (Ne.symm hid), hh.counts o ho]
  · have hold : ∃ o ∈ v.objs, o.objid = x.1 := by
      rcases List.mem_append.mp hx with hx | hx
      · exact hh.opened x hx
      · obtain rfl := List.mem_singleton.mp hx
        exact hopen
    obtain ⟨o, ho, hox⟩ := hold
    refine ⟨_, List.mem_map_of_mem ho, (atObj_objid ?_ o).trans hox⟩
    exact fun _ => rfl
  · rcases List.mem_append.mp hx with hx | hx
    · exact (hh.fresh x hx).trans (Nat.lt_succ_self _)
    · obtain rfl := List.mem_singleton.mp hx
      exact Nat.lt_succ_self _

/-- An object is registered and gets its first handle. -/
theorem Handles.insert (hh : Handles v hs) {o : ObjectInfo} (hnew : ∀ x ∈ v.objs, x.objid ≠ o.objid)
    (hlist : o.objHndList = [v.nextHandle]) (hcnt : o.refCnt = 1) {use : ℕ → Option BlockUse} :
    Handles ({ v with use, nextHandle := v.nextHandle + 1 }.insert o) (hs ++ [(o.objid, v.nextHandle)]) := by
  have hnil : handlesOf o.objid hs = [] := handlesOf_eq_nil fun x hx hxo => by
    obtain ⟨o', ho', h'⟩ := hh.opened x hx
    exact hnew o' ho' (h'.trans hxo)
  refine ⟨fun x hx => ?_, fun x hx => ?_, fun x hx => ?_, fun x hx => ?_, hh.nodup_add⟩
  · rcases mem_insert.mp hx with rfl | hx
    · rw [handlesOf_add_self, hnil, hlist, List.nil_append]
    · rw [handlesOf_add_of_ne (hnew x hx).symm]
      exact hh.lists x hx
  · rcases mem_insert.mp hx with rfl | hx
    · rw [handlesOf_add_self, hnil, hcnt]
      rfl
    · rw [handlesOf_add_of_ne (hnew x hx).symm]
      exact hh.counts x hx
  · rcases List.mem_append.mp hx with hx | hx
    · obtain ⟨o', ho', h'⟩ := hh.opened x hx
      exact ⟨o', mem_insert.mpr (.inr ho'), h'⟩
    · obtain rfl := List.mem_singleton.mp hx
      exact ⟨o, mem_insert.mpr (.inl rfl), rfl⟩
  · rcases List.mem_append.mp hx with hx | hx
    · exact (hh.fresh x hx).trans (Nat.lt_succ_self _)
    · obtain rfl := List.mem_singleton.mp hx
      exact Nat.lt_succ_self _

/-- What `put_object_handle` does. -/
def View.putHandle (v : View) (objid : ℕ) (h : HandlePtr) : View :=
  v.mapObj objid fun o =>
    { o with objHndList := o.objHndList.erase h, refCnt := uint32 (o.refCnt + (2 ^ 32 - 1)) }

theorem Handles.putHandle (hh : Handles v hs) (hmem : (objid, h) ∈ hs) :
    Handles (v.putHandle objid h) (hs.erase (objid, h)) := by
  refine ⟨List.forall_mem_map.mpr fun o ho => ?_, List.forall_mem_map.mpr fun o ho => ?_, fun x hx => ?_,
    fun x hx => hh.fresh x (List.mem_of_mem_erase hx), hh.nodup.sublist (List.erase_sublist.map _)⟩
  · unfold atObj
    split_ifs with hid
    · subst hid
      rw [handlesOf_erase_self hh.nodup, ← hh.lists o ho]
    · rw [handlesOf_erase_of_ne (Ne.symm hid), hh.lists o ho]
  · unfold atObj
    split_ifs with hid
    · subst hid
      have hpos := List.length_pos_of_mem (mem_handlesOf.mpr hmem)
      dsimp only
      rw [handlesOf_erase_self hh.nodup, List.length_erase_of_mem (mem_handlesOf.mpr hmem), hh.counts o ho]
      simp only [uint32]
      omega
    · rw [handlesOf_erase_of_ne (Ne.symm hid), hh.counts o ho]
  · obtain ⟨o, ho, hox⟩ := hh.opened x (List.mem_of_mem_erase hx)
    refine ⟨_, List.mem_map_of_mem ho, (atObj_objid ?_ o).trans hox⟩
    exact fun _ => rfl

/-- An object without handles is taken off the list. -/
theorem Handles.remove (hh : Handles v hs) (hnil : handlesOf objid hs = []) :
    Handles { v with objs := v.objs.filter (·.objid ≠ objid) } hs where
  lists o ho := hh.lists o (List.mem_filter.mp ho).1
  counts o ho := hh.counts o (List.mem_filter.mp ho).1
  opened x hx := by
    obtain ⟨o, ho, hox⟩ := hh.opened x hx
    refine ⟨o, List.mem_filter.mpr ⟨ho, ?_⟩, hox⟩
    have hne : x.1 ≠ objid := fun h => by
      have := mem_handlesOf.mpr (show (objid, x.2) ∈ hs from h ▸ hx)
      rw [hnil] at this
      cases this
    simpa [hox] using hne
  fresh := hh.fresh
  nodup := hh.nodup

/-- The objects have the handles `hs`, and each object has one. -/
structure Held (v : View) (hs : List (ℕ × HandlePtr)) : Prop where
  handles : Handles v hs
  owned : ∀ o ∈ v.objs, ∃ h, (o.objid, h) ∈ hs

theorem Held.only {p : ℕ → Prop} (hh : Held v hs) (honly : v.Only p v') : Held v' hs := by
  refine ⟨hh.handles.only honly, fun o ho => ?_⟩
  obtain ⟨o₀, ho₀, hid, -⟩ := honly.mem ho
  rw [hid]
  exact hh.owned o₀ ho₀

/-- The old handles are still there. -/
theorem Held.owned_add (hh : Held v hs)
    (hobjs : ∀ x ∈ v'.objs, x.objid = objid ∨ ∃ y ∈ v.objs, y.objid = x.objid) :
    ∀ x ∈ v'.objs, ∃ h', (x.objid, h') ∈ hs ++ [(objid, h)] := by
  intro x hx
  rcases hobjs x hx with rfl | ⟨y, hy, hyx⟩
  · exact ⟨h, by simp⟩
  · obtain ⟨h', hh'⟩ := hh.owned y hy
    exact ⟨h', List.mem_append_left _ (hyx ▸ hh')⟩

/-! ## Handles that come and go -/

/-- The handle `h` on the object is given out. -/
def Takes (v v' : View) (objid : ℕ) (h : HandlePtr) : Prop := ∀ hs, Held v hs → Held v' (hs ++ [(objid, h)])

theorem Takes.of_only {p : ℕ → Prop} (honly : v.Only p v') (ht : Takes v' v'' objid h) : Takes v v'' objid h :=
  fun hs hh => ht hs (hh.only honly)

theorem Takes.only {p : ℕ → Prop} (ht : Takes v v' objid h) (honly : v'.Only p v'') : Takes v v'' objid h :=
  fun hs hh => (ht hs hh).only honly

/-- An object is registered with its first handle. -/
theorem Takes.insert (o : ObjectInfo) (use : ℕ → Option BlockUse) (hnew : ∀ x ∈ v.objs, x.objid ≠ o.objid)
    (hlist : o.objHndList = [v.nextHandle]) (hcnt : o.refCnt = 1) :
    Takes v ({ v with use, nextHandle := v.nextHandle + 1 }.insert o) o.objid v.nextHandle := by
  refine fun hs hh => ⟨hh.handles.insert hnew hlist hcnt, hh.owned_add fun x hx => ?_⟩
  rcases mem_insert.mp hx with rfl | hx
  · exact .inl rfl
  · exact .inr ⟨x, hx, rfl⟩

/-- An open object gets another handle. -/
theorem Takes.addHandle (hopen : ∃ o ∈ v.objs, o.objid = objid) : Takes v (v.addHandle objid) objid v.nextHandle := by
  refine fun hs hh => ⟨hh.handles.addHandle hopen, hh.owned_add fun x hx => ?_⟩
  obtain ⟨y, hy, rfl⟩ := List.mem_map.mp hx
  refine .inr ⟨y, hy, (atObj_objid ?_ y).symm⟩
  exact fun _ => rfl

/-- The handle `h` is closed; an object of which it was the last one goes off the list. -/
def Gives (v v' : View) (h : HandlePtr) : Prop :=
  ∀ hs k, (k, h) ∈ hs → (handlesOf k hs).length < 2 ^ 32 → Held v hs → Held v' (hs.erase (k, h))

/-- The other objects keep their handles. -/
theorem Held.owned_erase (hh : Held v hs) {o : ObjectInfo} (ho : o ∈ v.objs) (hne : o.objid ≠ objid) :
    ∃ h', (o.objid, h') ∈ hs.erase (objid, h) := by
  obtain ⟨h', hh'⟩ := hh.owned o ho
  exact ⟨h', (List.mem_erase_of_ne (by simpa using fun h => absurd h hne)).mpr hh'⟩

/-- A handle on the list of an object is one on this object. -/
theorem Held.key (hh : Held v hs) {o : ObjectInfo} (ho : o ∈ v.objs) (hmem : h ∈ o.objHndList) (hk : (k, h) ∈ hs) :
    o.objid = k := by
  rw [hh.handles.lists o ho, mem_handlesOf] at hmem
  exact congrArg Prod.fst (List.inj_on_of_nodup_map hh.handles.nodup hmem hk rfl)

/-- The reference count after the handle is gone. -/
theorem Held.refCnt_putHandle (hh : Held v hs) (hmem : (objid, h) ∈ hs) (hfew : (handlesOf objid hs).length < 2 ^ 32)
    {x : ObjectInfo} (hx : x ∈ (v.putHandle objid h).objs) (hid : x.objid = objid) :
    x.refCnt = (handlesOf objid (hs.erase (objid, h))).length := by
  have hlen : (handlesOf objid (hs.erase (objid, h))).length < 2 ^ 32 := by
    rw [handlesOf_erase_self hh.handles.nodup]
    exact (List.length_erase_le).trans_lt hfew
  rw [(hh.handles.putHandle hmem).counts x hx, hid]
  exact Nat.mod_eq_of_lt hlen

theorem mem_putHandle {x : ObjectInfo} (hx : x ∈ (v.putHandle objid h).objs) : ∃ o ∈ v.objs, o.objid = x.objid := by
  obtain ⟨o, ho, rfl⟩ := List.mem_map.mp hx
  refine ⟨o, ho, (atObj_objid ?_ o).symm⟩
  exact fun _ => rfl

/-- The object has other handles. -/
theorem Gives.putHandle {o : ObjectInfo} (ho : o ∈ v.objs) (hmem : h ∈ o.objHndList) {x : ObjectInfo}
    (hx : x ∈ (v.putHandle o.objid h).objs) (hid : x.objid = o.objid) (hcnt : x.refCnt ≠ 0) :
    Gives v (v.putHandle o.objid h) h := by
  intro hs k hk hfew hh
  obtain rfl := hh.key ho hmem hk
  refine ⟨hh.handles.putHandle hk, fun y hy => ?_⟩
  by_cases hy' : y.objid = o.objid
  · rw [hh.refCnt_putHandle hk hfew hx hid] at hcnt
    obtain ⟨h', hh'⟩ := List.exists_mem_of_length_pos (Nat.pos_of_ne_zero hcnt)
    exact ⟨h', by rw [hy']; exact mem_handlesOf.mp hh'⟩
  · obtain ⟨z, hz, hzy⟩ := mem_putHandle hy
    rw [← hzy] at hy' ⊢
    exact hh.owned_erase hz hy'

/-- It was the last handle of the object. -/
theorem Gives.remove {o : ObjectInfo} (ho : o ∈ v.objs) (hmem : h ∈ o.objHndList) {x : ObjectInfo}
    (hx : x ∈ (v.putHandle o.objid h).objs) (hid : x.objid = o.objid) (hcnt : x.refCnt = 0) {p : ℕ → Prop}
    (honly : (v.putHandle o.objid h).Only p v') :
    Gives v { v' with objs := v'.objs.filter (·.objid ≠ o.objid) } h := by
  intro hs k hk hfew hh
  obtain rfl := hh.key ho hmem hk
  rw [hh.refCnt_putHandle hk hfew hx hid] at hcnt
  refine ⟨((hh.handles.putHandle hk).only honly).remove (List.length_eq_zero_iff.mp hcnt), fun y hy => ?_⟩
  obtain ⟨hy, hne⟩ := List.mem_filter.mp hy
  obtain ⟨z, hz, hyz, -⟩ := honly.mem hy
  obtain ⟨w, hw, hwz⟩ := mem_putHandle hz
  rw [hyz, ← hwz]
  exact hh.owned_erase hw (by rw [hwz, ← hyz]; simpa using hne)

end IndexFs.Object
