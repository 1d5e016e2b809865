import IndexFs.Object.InodeRuns

/-!
# The registry over a run

Results:

* `registry_agrees`: objects, handles, the objid tree and the inodes over a run.
* `registry_limits`: the objects of the container itself have numbers that cannot be
  created, a reference count forgets 2^32 handles, and an inode that waits when its
  object is opened again is not written.
-/

namespace IndexFs.Object

open IndexFs.Collate IndexFs.Space

variable {ct : Container}

/-! ## Runs -/

/-- After a commit the objid tree has the inode of every user object. -/
theorem Session.Registered.commit {s s' : Session} (hs : s.Registered) {updates : ℕ → SystemOps}
    (hstep : s.Step (.commit updates) s') :
    ∃ l, Registry s'.ct.view l ∧ ∀ o ∈ s'.ct.view.objs, reservedObjId ≤ o.objid → Valid l o := by
  obtain ⟨l, hr⟩ := hs
  cases hstep with
  | commit hrun =>
    obtain ⟨l', hr', -, hvalid⟩ := (ends_of_ok hrun).mp (commitContainerModification_spec hr updates)
    exact ⟨l', hr', hvalid⟩

/-- Objects, handles and the objid tree agree; and no inode is lost if no object is opened whose inode waits. -/
theorem registry_agrees {s : Session} (hs : s.Reached HandlesFit) :
    (s.ct.objInfoList.map ObjectInfo.objid).Nodup ∧
    (∀ o ∈ s.ct.objInfoList, 0 < o.refCnt ∧ o.refCnt = (s.outstanding o.objid).length ∧
      o.refCnt = o.objHndList.length) ∧
    (∀ objid, s.outstanding objid ≠ [] → ∃ o ∈ s.ct.objInfoList, o.objid = objid) ∧
    (∀ objid, reservedObjId ≤ objid → (∃ n, s.ct.use n = some (.inode objid)) →
      ∀ inodeNo search alloc insert ct', readIdBlocks search s.ct = .ok () ct' →
        ∃ ct'', ofsCreateObject objid inodeNo search alloc insert s.ct = .error .objExist ct'' ∧
          ct''.view = s.ct.view) ∧
    (∀ objid, reservedObjId ≤ objid → objid < 2 ^ 64 → s.outstanding objid = [] → Mapped s.ct objid) ∧
    (∀ updates s', s.Step (.commit updates) s' → ∀ objid, reservedObjId ≤ objid → objid < 2 ^ 64 →
      Mapped s'.ct objid ∧ ∀ o ∈ s'.ct.objInfoList, o.objid = objid →
        o.inodeNo = o.rootVbn ∧ s'.ct.use o.rootVbn = some (.inode objid)) ∧
    ((s.Reached fun s c => OpensSettled s c ∧ CommitsUnflagged s c) →
      (∀ objid, reservedObjId ≤ objid → s.outstanding objid = [] → ∀ n, s.ct.use n = some (.inode objid) →
        Kept s.ct n) ∧
      ∀ updates s', s.Step (.commit updates) s' → ∀ objid, reservedObjId ≤ objid →
        ∀ n, s'.ct.use n = some (.inode objid) → s'.ct.onDisk n = true) := by
  obtain ⟨⟨l, hr⟩, ⟨hh, howned⟩, hfew⟩ := Session.Ok.reached hs
  have hlist : ∀ o ∈ s.ct.objInfoList, o.objHndList = s.outstanding o.objid := fun o ho =>
    hh.lists o.core (core_mem ho)
  have hcnt : ∀ o ∈ s.ct.objInfoList, o.refCnt = (s.outstanding o.objid).length := fun o ho =>
    (hh.counts o.core (core_mem ho)).trans (Nat.mod_eq_of_lt (hfew o.objid))
  have hclosed : ∀ objid, s.outstanding objid = [] → ∀ o ∈ s.ct.view.objs, o.objid ≠ objid := by
    intro objid hnil o ho hid
    obtain ⟨h, hmem⟩ := howned o ho
    have hmem' := mem_handlesOf.mpr (hid ▸ hmem)
    rw [Session.outstanding] at hnil
    rw [hnil] at hmem'
    cases hmem'
  refine ⟨?_, fun o ho => ⟨?_, hcnt o ho, by rw [hlist o ho]; exact hcnt o ho⟩, fun objid hne => ?_,
    fun objid hk hexist inodeNo search alloc insert ct' hread =>
      ofsCreateObject_exist hr hk hexist inodeNo alloc insert hread,
    fun objid hk hobjid hnil => hr.mapped_closed hk hobjid (hclosed objid hnil),
    fun updates s' hstep objid hk hobjid => ?_, fun hsettled => ⟨fun objid hk hnil n hn => ?_,
      fun updates s' hstep objid hk n hn => ?_⟩⟩
  · have hnodup : (s.ct.view.objs.map ObjectInfo.objid).Nodup :=
      List.pairwise_map.mpr (hr.objids.imp fun h => h.ne)
    unfold Container.view at hnodup
    rwa [List.map_map] at hnodup
  · obtain ⟨h, hmem⟩ := howned o.core (core_mem ho)
    rw [hcnt o ho]
    exact List.length_pos_of_mem (mem_handlesOf.mpr hmem)
  · obtain ⟨h, hmem⟩ := List.exists_mem_of_ne_nil _ hne
    obtain ⟨_, hobjs, hid⟩ := hh.opened _ (mem_handlesOf.mp hmem)
    obtain ⟨o, ho, rfl⟩ := List.mem_map.mp hobjs
    exact ⟨o, ho, hid⟩
  · obtain ⟨l', hr', hvalid⟩ := Session.Registered.commit ⟨l, hr⟩ hstep
    refine ⟨hr'.mapped_valid hk hobjid hvalid, fun o ho hid => ?_⟩
    subst hid
    exact ⟨(hvalid o.core (core_mem ho) hk).2, hr'.root o.core (core_mem ho)⟩
  · -- an object that is closed has no dirty root
    refine (hsettled.inodes.2.2 n objid hk hn).resolve_right ?_
    rintro ⟨o, ho, hid, -⟩
    exact hclosed objid hnil o.core (core_mem ho) hid
  · obtain ⟨hr, h, hi⟩ := hsettled.inodes
    cases hstep with
    | commit hrun => exact (ends_of_ok hrun).mp (commitContainerModification_inodes h (fun _ => id) hr hi _) n objid hk hn

/-- What the calls of a careful caller are like. -/
def Careful (s : Session) (c : Call) : Prop := HandlesFit s c ∧ OpensSettled s c ∧ CommitsUnflagged s c

instance (s : Session) (c : Call) : Decidable (Careful s c) :=
  inferInstanceAs (Decidable (HandlesFit s c ∧ OpensSettled s c ∧ CommitsUnflagged s c))

/-- An object has two handles; after a commit it loses one of them, and its root block becomes dirty. -/
def sharedCalls : List Call :=
  [.create 128 15 [] [] [], .open 128 [], .commit fun _ => [], .close 3 [], .index 128 (.setRootDirty 16)]

/-- It has one handle left. After another commit its inode is on the disk where it moved to; and it is still there
when the object has been closed, opened again and closed. -/
theorem registry_agrees_shared : ∃ s s' s'' : Session, s.Reached HandlesFit ∧
    (∃ o ∈ s.ct.objInfoList, o.objid = 128 ∧ o.refCnt = 1 ∧ (s.outstanding 128).length = 1) ∧
    s.Step (.commit fun _ => []) s' ∧ Mapped s'.ct 128 ∧ s'.ct.use 16 = some (.inode 128) ∧
    s'.ct.onDisk 16 = true ∧ s''.Reached HandlesFit ∧ s''.outstanding 128 = [] ∧ Mapped s''.ct 128 ∧
    s''.ct.use 16 = some (.inode 128) ∧ Kept s''.ct 16 := by
  obtain ⟨s, hs, hopen, hunflagged, hnext⟩ : ∃ s : Session, s.Reached Careful ∧
      (∃ o ∈ s.ct.objInfoList, o.objid = 128 ∧ o.refCnt = 1) ∧ Unflagged s.ct ∧
      (s.next (.commit fun _ => [])).any (fun s' => s'.ct.use 16 = some (.inode 128) ∧
        (s'.after Careful [.close 4 [], .open 128 [], .close 5 []]).any (fun s'' =>
          s''.outstanding 128 = [] ∧ s''.ct.use 16 = some (.inode 128)) = true) = true :=
    Session.Reached.of_calls sharedCalls (by decide +kernel)
  obtain ⟨s', hs', hnext⟩ := (Option.any_eq_true _ _).mp hnext
  obtain ⟨huse', hafter⟩ := of_decide_eq_true hnext
  obtain ⟨s'', hs'', hclosed⟩ := (Option.any_eq_true _ _).mp hafter
  obtain ⟨hnil, huse''⟩ := of_decide_eq_true hclosed
  have hstep := Session.next_step hs'
  have hcareful : Careful s (.commit fun _ => []) := ⟨trivial, trivial, hunflagged⟩
  have hreached'' : s''.Reached Careful := (hs.step hcareful hstep).after hs''
  have hfit : ∀ {t : Session}, t.Reached Careful → t.Reached HandlesFit := fun ht => ht.mono fun _ _ h => h.1
  have hsettled : ∀ {t : Session}, t.Reached Careful → t.Reached fun s c => OpensSettled s c ∧ CommitsUnflagged s c :=
    fun ht => ht.mono fun _ _ h => h.2
  obtain ⟨-, hcounts, -, -, -, hcommit, hdisk⟩ := registry_agrees (hfit hs)
  obtain ⟨-, -, -, -, hmapped, -, hkept⟩ := registry_agrees (hfit hreached'')
  obtain ⟨o, ho, hid, hone⟩ := hopen
  refine ⟨s, s', s'', hfit hs, ⟨o, ho, hid, hone, ?_⟩, hstep, (hcommit _ _ hstep 128 (by decide) (by decide)).1, huse',
    (hdisk (hsettled hs)).2 _ _ hstep 128 (by decide) 16 huse', hfit hreached'', hnil,
    hmapped 128 (by decide) (by decide) hnil, huse'',
    (hkept (hsettled hreached'')).1 128 (by decide) hnil 16 huse''⟩
  rw [← hone, (hcounts o ho).2.1, hid]

/-! ## Limits -/

/-- An open object only gets another handle. -/
theorem ofsOpenObject_open {o : ObjectInfo} (ho : o ∈ ct.objInfoList) (search : List ℕ) :
    ∃ h ct', ofsOpenObject o.objid search ct = .ok h ct' ∧ ∃ o' ∈ ct'.objInfoList, o'.objid = o.objid ∧
      o'.refCnt = uint32 (o.refCnt + 1) := by
  have hends : Ends (ofsOpenObject o.objid search) ct
      (fun _ ct' => ∃ o' ∈ ct'.objInfoList, o'.objid = o.objid ∧ o'.refCnt = uint32 (o.refCnt + 1))
      fun _ _ => False := by
    unfold ofsOpenObject
    rw [ends_bind, ends_get, if_pos (List.any_eq_true.mpr ⟨o, ho, by simp⟩)]
    unfold getObjectHandle modifyInfo
    rw [ends_bind, ends_get, ends_bind, ends_modify, ends_bind, ends_modify, ends_pure]
    exact ⟨_, List.mem_map.mpr ⟨o, ho, if_pos rfl⟩, rfl, rfl⟩
  rcases ends_iff.mp hends with ⟨h, ct', hrun, hpost⟩ | ⟨_, _, -, h⟩
  · exact ⟨h, ct', hrun, hpost⟩
  · exact h.elim

/-- An object is opened `n` times. -/
theorem Session.Reached.opens {s : Session} (hs : s.Reached fun _ _ => True) {o : ObjectInfo}
    (ho : o ∈ s.ct.objInfoList) (hobjid : o.objid < 2 ^ 64) (hcnt : o.refCnt < 2 ^ 32) (n : ℕ) :
    ∃ s' : Session, s'.Reached (fun _ _ => True) ∧
      (s'.outstanding o.objid).length = (s.outstanding o.objid).length + n ∧
      ∃ o' ∈ s'.ct.objInfoList, o'.objid = o.objid ∧ o'.refCnt = uint32 (o.refCnt + n) := by
  induction n with
  | zero => exact ⟨s, hs, rfl, o, ho, rfl, (Nat.mod_eq_of_lt hcnt).symm⟩
  | succ n ih =>
    obtain ⟨s₁, hs₁, hlen, o₁, ho₁, hid, hcnt₁⟩ := ih
    obtain ⟨h, ct', hrun, o₂, ho₂, hid₂, hcnt₂⟩ := ofsOpenObject_open ho₁ []
    rw [hid] at hrun hid₂
    refine ⟨_, hs₁.step trivial (.open hobjid hrun), ?_, o₂, ho₂, hid₂, ?_⟩
    · unfold Session.outstanding at hlen ⊢
      dsimp only
      rw [← List.append_assoc, handlesOf_add_self, List.length_append, hlen]
      rfl
    · rw [hcnt₂, hcnt₁]
      simp only [uint32]
      omega

/-- The object is closed before its inode was written, opened, and then committed. -/
def lostCalls : List Call := [.create 128 15 [] [] [], .close 3 [], .open 128 []]

/-- The objid object exists and cannot be created; 2^32 handles on it count as none; and the objid tree names a
block for the inode of an object that is neither on the disk after a commit nor waits to be written. -/
theorem registry_limits :
    (∃ s : Session, s.Reached (fun _ _ => True) ∧ (∃ n, s.ct.use n = some (.inode objidObjId)) ∧
      ofsCreateObject objidObjId 15 [] [] [] s.ct = .error .objIdInvalid s.ct) ∧
    (∃ s : Session, s.Reached (fun _ _ => True) ∧ (s.outstanding objidObjId).length = 2 ^ 32 ∧
      ∃ o ∈ s.ct.objInfoList, o.objid = objidObjId ∧ o.refCnt = 0) ∧
    ∃ s s' : Session, s.Reached HandlesFit ∧ s.Step (.commit fun _ => []) s' ∧ Mapped s'.ct 128 ∧
      s'.ct.use 15 = some (.inode 128) ∧ ¬ Kept s'.ct 15 := by
  obtain ⟨s, hs, huse, hone, o, ho, hid, hcnt⟩ : ∃ s : Session, s.Reached (fun _ _ => True) ∧
      s.ct.use 14 = some (.inode objidObjId) ∧ (s.outstanding objidObjId).length = 1 ∧
      ∃ o ∈ s.ct.objInfoList, o.objid = objidObjId ∧ o.refCnt = 1 :=
    Session.Reached.of_calls [] (by decide +kernel)
  refine ⟨⟨s, hs, ⟨14, huse⟩, rfl⟩, ?_, ?_⟩
  · obtain ⟨s', hs', hlen, o', ho', hid', hcnt'⟩ := hs.opens ho (by rw [hid]; decide) (by rw [hcnt]; decide) (2 ^ 32 - 1)
    rw [hid] at hlen hid'
    refine ⟨s', hs', ?_, o', ho', hid', ?_⟩
    · rw [hlen, hone]
      norm_num
    · rw [hcnt', hcnt]
      norm_num [uint32]
  · obtain ⟨s, hs, hnext⟩ : ∃ s : Session, s.Reached HandlesFit ∧ (s.next (.commit fun _ => [])).any
        (fun s' => s'.ct.use 15 = some (.inode 128) ∧ ¬ Kept s'.ct 15) = true :=
      Session.Reached.of_calls lostCalls (by decide +kernel)
    obtain ⟨s', hs', hlost⟩ := (Option.any_eq_true _ _).mp hnext
    obtain ⟨huse, hlost⟩ := of_decide_eq_true hlost
    have hstep := Session.next_step hs'
    obtain ⟨l, hr, hvalid⟩ := (Session.Ok.reached hs).registered.commit hstep
    exact ⟨s, s', hs, hstep, hr.mapped_valid (by decide) (by decide) hvalid, huse, hlost⟩

end IndexFs.Object
