import IndexFs.Object.Calls

/-!
# What the registries of a container agree on

Results:

* `Session.Ok.reached`: the invariant of a run in which no object gets more handles
  than the 32 bits of its reference count can tell.
* `ofsCreateObject_exist`: an object that exists is not created again.
* `Registry.mapped_closed`, `Registry.mapped_valid`: the objid tree has the inode of a
  closed object, and after a commit that of every object.
* `Session.Reached.after`: the runs of given calls can be computed.
-/

namespace IndexFs.Object

open IndexFs.Collate IndexFs.Space

variable {ct ct' : Container} {l : List (ℕ × ℕ)} {objid : ℕ}

/-! ## The objid tree -/

/-- A search of the objid tree finds the block that is in use for the inode of an object. -/
def Mapped (ct : Container) (objid : ℕ) : Prop :=
  ∀ n, ct.use n = some (.inode objid) ↔
    ∃ value, idSearch (u64Bytes objid) ct = .ok value ct ∧ osBstrToU64 value = .ok n

theorem Registry.mapped (hr : Registry ct.view l) (hobjid : objid < 2 ^ 64)
    (h : ∀ n, ct.use n = some (.inode objid) ↔ (objid, n) ∈ l) : Mapped ct objid := by
  intro n
  rw [h]
  have hsearch := idSearch_spec hr.tree hr.ids (osBstrToU64_u64Bytes hobjid)
  constructor
  · intro hn
    rcases ends_iff.mp hsearch with ⟨value, _, hrun, rfl, v, hv, rfl⟩ | ⟨e, _, -, -, -, habsent⟩
    · obtain rfl := hr.ids.unique hn hv
      exact ⟨_, hrun, osBstrToU64_osU64ToBstr (hr.ids.bound _ hn).2⟩
    · exact absurd hn (habsent n)
  · rintro ⟨value, hrun, hvalue⟩
    obtain ⟨-, v, hv, rfl⟩ := (ends_of_ok hrun).mp hsearch
    rw [osBstrToU64_osU64ToBstr (hr.ids.bound _ hv).2] at hvalue
    cases hvalue
    exact hv

/-- The entry of a closed object names the block of its inode. -/
theorem Registry.mapped_closed (hr : Registry ct.view l) (hk : reservedObjId ≤ objid) (hobjid : objid < 2 ^ 64)
    (hclosed : ∀ o ∈ ct.view.objs, o.objid ≠ objid) : Mapped ct objid := by
  refine hr.mapped hobjid fun n => ⟨fun hn => ?_, fun hn => hr.closed _ hn hclosed⟩
  rcases hr.inode n objid hk hn with ⟨o, ho, hid, -⟩ | ⟨-, hmem⟩
  · exact absurd hid (hclosed o ho)
  · exact hmem

/-- After a commit the entry of an open object does so, too. -/
theorem Registry.mapped_valid (hr : Registry ct.view l) (hk : reservedObjId ≤ objid) (hobjid : objid < 2 ^ 64)
    (hvalid : ∀ o ∈ ct.view.objs, reservedObjId ≤ o.objid → Valid l o) : Mapped ct objid := by
  by_cases hopen : ∃ o ∈ ct.view.objs, o.objid = objid
  · obtain ⟨o, ho, rfl⟩ := hopen
    have hmem := (hvalid o ho hk).1
    refine hr.mapped hobjid fun n => ⟨fun hn => ?_, fun hn => ?_⟩
    · rcases hr.inode n _ hk hn with ⟨o', ho', hid, rfl⟩ | ⟨hclosed, -⟩
      · rwa [hr.unique ho' ho hid]
      · exact absurd rfl (hclosed o ho)
    · rw [hr.ids.unique hn hmem]
      exact hr.root o ho
  · exact hr.mapped_closed hk hobjid fun o ho hid => hopen ⟨o, ho, hid⟩

/-! ## Creating an object that exists -/

theorem ofsCreateObject_exist (hr : Registry ct.view l) (hk : reservedObjId ≤ objid)
    (hexist : ∃ n, ct.use n = some (.inode objid)) (inodeNo : ℕ) {search : List ℕ} (alloc insert : SystemOps)
    (hread : readIdBlocks search ct = .ok () ct') :
    ∃ ct'', ofsCreateObject objid inodeNo search alloc insert ct = .error .objExist ct'' ∧ ct''.view = ct.view := by
  obtain ⟨n, hn⟩ := hexist
  have hbound : objid < invalidObjid := by
    rcases hr.inode n objid hk hn with ⟨o, ho, rfl, -⟩ | ⟨-, hmem⟩
    · exact hr.bound o ho
    · exact (hr.user _ hmem).2
  have hview : ct'.view = ct.view := (ends_of_ok hread).mp (readIdBlocks_keeps search ct)
  have hends : Ends (ofsCreateObject objid inodeNo search alloc insert) ct (fun _ _ => False)
      fun e ct'' => e = .objExist ∧ ct''.view = ct.view := by
    unfold ofsCreateObject
    rw [ends_bind, ends_assertThat]
    refine ⟨fun _ => ?_, fun h => absurd hbound.ne h⟩
    rw [if_neg (not_lt.mpr hk), ends_bind, ends_get]
    split_ifs with hany
    · exact ⟨rfl, rfl⟩
    · -- the object is closed, and the search finds its entry
      have hclosed : ∀ o ∈ ct'.view.objs, o.objid ≠ objid := by
        rw [hview]
        refine List.forall_mem_map.mpr fun o ho => ?_
        simp only [List.any_eq_true, decide_eq_true_eq, not_exists, not_and] at hany
        exact hany o ho
      have hr' : Registry ct'.view l := by rwa [hview]
      have hn' : ct'.use n = some (.inode objid) := by
        have : ct'.view.use n = ct.view.use n := by rw [hview]
        exact this.trans hn
      obtain ⟨value, hrun, -⟩ := (hr'.mapped_closed hk (hbound.trans invalidObjid_lt) hclosed n).mp hn'
      rw [ends_bind, ends_of_ok hread, ends_bind, ends_codeOf, ends_of_ok hrun]
      exact ⟨rfl, hview⟩
  rcases ends_iff.mp hends with ⟨_, _, -, h⟩ | ⟨e, ct'', hrun, rfl, hpost⟩
  · exact h.elim
  · exact ⟨ct'', hrun, hpost⟩

/-! ## Sessions -/

/-- The registry is in order. -/
def Session.Registered (s : Session) : Prop := ∃ l, Registry s.ct.view l

theorem Session.Start.registered {s : Session} (h : s.Start) : s.Registered := by
  cases h with
  | create hct hrun => exact ⟨_, ((ends_of_ok hrun).mp (createSystemObjects_spec hct _ _)).2.1⟩
  | «open» hct hrun => exact ⟨_, ((ends_of_ok hrun).mp (openSystemObjects_spec hct)).2.1⟩

theorem Session.Step.registered {s s' : Session} {c : Call} (hstep : s.Step c s') (hs : s.Registered) :
    s'.Registered := by
  obtain ⟨l, hr⟩ := hs
  cases hstep with
  | create hobjid hrun =>
    obtain ⟨-, l', hr', -⟩ := (ends_of_ok hrun).mp (ofsCreateObject_spec hr hobjid _ _ _ _)
    exact ⟨l', hr'⟩
  | «open» hobjid hrun => exact ⟨l, ((ends_of_ok hrun).mp (ofsOpenObject_spec hr hobjid _)).1⟩
  | close hheld hrun =>
    obtain ⟨l', hr', -⟩ := (ends_of_ok hrun).mp (ofsCloseObject_spec hr _ _)
    exact ⟨l', hr'⟩
  | index hrun => exact ⟨l, ((ends_of_ok hrun).mp (runOp_spec hr _)).1⟩
  | commit hrun =>
    obtain ⟨l', hr', -⟩ := (ends_of_ok hrun).mp (commitContainerModification_spec hr _)
    exact ⟨l', hr'⟩

/-- No object gets more handles than its reference count can tell. -/
def HandlesFit (s : Session) : Call → Prop
  | .open objid _ => (s.outstanding objid).length + 1 < 2 ^ 32
  | _ => True

instance (s : Session) (c : Call) : Decidable (HandlesFit s c) :=
  match c with
  | .open objid _ => inferInstanceAs (Decidable ((s.outstanding objid).length + 1 < 2 ^ 32))
  | .create .. | .close .. | .index .. | .commit .. => .isTrue trivial

/-- The invariant of a session. -/
structure Session.Ok (s : Session) : Prop where
  registered : s.Registered
  held : Held s.ct.view (s.own ++ s.held)
  few : ∀ k, (s.outstanding k).length < 2 ^ 32

theorem Session.Ok.start {s : Session} (h : s.Start) : s.Ok := by
  have hfew : ∀ {hs : List HandlePtr} {k : ℕ}, hs.length = 3 → (handlesOf k (systemHandles hs ++ [])).length < 2 ^ 32 := by
    intro hs k hlen
    unfold handlesOf
    rw [List.append_nil, List.length_map]
    refine (List.length_filter_le _ _).trans_lt ?_
    simp [systemHandles, List.length_zip, hlen]
  refine ⟨h.registered, ?_, ?_⟩
  all_goals
    cases h with
    | create hct hrun =>
      obtain ⟨hlen, -, hheld⟩ := (ends_of_ok hrun).mp (createSystemObjects_spec hct _ _)
      first | exact fun k => hfew hlen | simpa using hheld
    | «open» hct hrun =>
      obtain ⟨hlen, -, hheld⟩ := (ends_of_ok hrun).mp (openSystemObjects_spec hct)
      first | exact fun k => hfew hlen | simpa using hheld

/-- A handle that a caller holds is not one that the container holds. -/
theorem erase_held {own held : List (ℕ × HandlePtr)} {x : ℕ × HandlePtr}
    (hnodup : ((own ++ held).map Prod.snd).Nodup) (hx : x ∈ held) :
    (own ++ held).erase x = own ++ held.erase x := by
  refine List.erase_append_right _ fun hown => ?_
  exact (List.nodup_append'.mp (hnodup.of_map _)).2.2 hown hx

theorem Session.Ok.step {s s' : Session} {c : Call} (hs : s.Ok) (hfit : HandlesFit s c) (hstep : s.Step c s') :
    s'.Ok := by
  have hregistered := hstep.registered hs.registered
  obtain ⟨⟨l, hr⟩, hheld, hfew⟩ := hs
  have hadd : ∀ {objid : ℕ} {h : HandlePtr}, (s.outstanding objid).length + 1 < 2 ^ 32 →
      ∀ k, (handlesOf k (s.own ++ (s.held ++ [(objid, h)]))).length < 2 ^ 32 := by
    intro objid h hroom k
    rw [← List.append_assoc]
    by_cases hk : objid = k
    · subst hk
      rw [handlesOf_add_self, List.length_append]
      exact hroom
    · rw [handlesOf_add_of_ne hk]
      exact hfew k
  cases hstep with
  | create hobjid hrun =>
    obtain ⟨hnew, l', -, htakes⟩ := (ends_of_ok hrun).mp (ofsCreateObject_spec hr hobjid _ _ _ _)
    refine ⟨hregistered, by rw [← List.append_assoc]; exact htakes _ hheld, hadd ?_⟩
    have hnil : handlesOf _ (s.own ++ s.held) = [] := handlesOf_eq_nil fun x hx hxo => by
      obtain ⟨o, ho, hid⟩ := hheld.handles.opened x hx
      exact hnew o ho (hid.trans hxo)
    rw [Session.outstanding, hnil]
    norm_num
  | «open» hobjid hrun =>
    obtain ⟨-, htakes⟩ := (ends_of_ok hrun).mp (ofsOpenObject_spec hr hobjid _)
    exact ⟨hregistered, by rw [← List.append_assoc]; exact htakes _ hheld, hadd hfit⟩
  | @close objid h update ct' hmem hrun =>
    obtain ⟨l', -, hgives⟩ := (ends_of_ok hrun).mp (ofsCloseObject_spec hr h update)
    have herase := erase_held hheld.handles.nodup hmem
    refine ⟨hregistered, ?_, fun k => ?_⟩
    · rw [← herase]
      exact hgives _ objid (List.mem_append_right _ hmem) (hfew objid) hheld
    · unfold Session.outstanding
      rw [← herase]
      exact ((List.erase_sublist.filter _).map _).length_le.trans_lt (hfew k)
  | index hrun =>
    obtain ⟨-, honly⟩ := (ends_of_ok hrun).mp (runOp_spec hr _)
    exact ⟨hregistered, hheld.only honly, hfew⟩
  | commit hrun =>
    obtain ⟨l', -, honly, -⟩ := (ends_of_ok hrun).mp (commitContainerModification_spec hr _)
    exact ⟨hregistered, hheld.only honly, hfew⟩

theorem Session.Ok.reached {s : Session} (hs : s.Reached HandlesFit) : s.Ok := by
  induction hs with
  | start h => exact .start h
  | step _ hfit hstep ih => exact ih.step hfit hstep

/-! ## Runs that can be computed -/

/-- A container that `ofs_create_container` works on. -/
def newContainer : Container :=
  { heap := fun _ => none, nextCache := 0, metadataCache := [], objInfoList := [], nextHandle := 0, idTree := [],
    baseInodeNo := 0, spaceInodeNo := 0, objidInodeNo := 0, dirty := false, use := fun _ => none,
    onDisk := fun _ => false }

theorem newContainer_fresh : newContainer.Fresh := ⟨⟨fun _ => rfl, rfl, rfl⟩, rfl, fun _ => rfl⟩

/-- A new container, where the third inode is in the block 14, as the base space takes those before it. -/
def newSession : Option Session :=
  (okOf (createSystemObjects 14 []) newContainer).map fun r => ⟨r.2, systemHandles r.1, []⟩

theorem newSession_start {s : Session} (h : newSession = some s) : s.Start := by
  obtain ⟨⟨hs, ct⟩, hrun, rfl⟩ := Option.map_eq_some_iff.mp h
  exact .create newContainer_fresh (okOf_eq_some.mp hrun)

/-- The session that a call leads to. -/
def Session.next (s : Session) : Call → Option Session
  | .create objid inodeNo search alloc insert =>
    if objid < 2 ^ 64 then
      (okOf (ofsCreateObject objid inodeNo search alloc insert) s.ct).map fun r =>
        { s with ct := r.2, held := s.held ++ [(objid, r.1)] }
    else none
  | .open objid search =>
    if objid < 2 ^ 64 then
      (okOf (ofsOpenObject objid search) s.ct).map fun r => { s with ct := r.2, held := s.held ++ [(objid, r.1)] }
    else none
  | .close h update =>
    (s.held.find? (·.2 = h)).bind fun x =>
      (okOf (ofsCloseObject h update) s.ct).map fun r => { s with ct := r.2, held := s.held.erase x }
  | .index objid op => (okOf (runOp objid op) s.ct).map fun r => { s with ct := r.2 }
  | .commit updates => (okOf (commitContainerModification updates) s.ct).map fun r => { s with ct := r.2 }

theorem Session.next_step {s s' : Session} {c : Call} (h : s.next c = some s') : s.Step c s' := by
  cases c with
  | create objid inodeNo search alloc insert =>
    obtain ⟨hobjid, h⟩ := Option.ite_none_right_eq_some.mp h
    obtain ⟨⟨hnd, ct⟩, hrun, rfl⟩ := Option.map_eq_some_iff.mp h
    exact .create hobjid (okOf_eq_some.mp hrun)
  | «open» objid search =>
    obtain ⟨hobjid, h⟩ := Option.ite_none_right_eq_some.mp h
    obtain ⟨⟨hnd, ct⟩, hrun, rfl⟩ := Option.map_eq_some_iff.mp h
    exact .open hobjid (okOf_eq_some.mp hrun)
  | close hnd update =>
    obtain ⟨⟨objid, hnd'⟩, hfind, h⟩ := Option.bind_eq_some_iff.mp h
    obtain ⟨⟨_, ct⟩, hrun, rfl⟩ := Option.map_eq_some_iff.mp h
    obtain rfl : hnd' = hnd := by simpa using List.find?_some hfind
    exact .close (List.mem_of_find?_eq_some hfind) (okOf_eq_some.mp hrun)
  | index objid op =>
    obtain ⟨⟨_, ct⟩, hrun, rfl⟩ := Option.map_eq_some_iff.mp h
    exact .index (okOf_eq_some.mp hrun)
  | commit updates =>
    obtain ⟨⟨_, ct⟩, hrun, rfl⟩ := Option.map_eq_some_iff.mp h
    exact .commit (okOf_eq_some.mp hrun)

/-- The session that calls lead to, if `ok` allows each of them. -/
def Session.after (ok : Session → Call → Prop) [∀ s c, Decidable (ok s c)] : List Call → Session → Option Session
  | [], s => some s
  | c :: calls, s => if ok s c then (s.next c).bind (Session.after ok calls) else none

theorem Session.Reached.after {ok : Session → Call → Prop} [∀ s c, Decidable (ok s c)] {calls : List Call}
    {s s' : Session} (hs : s.Reached ok) (h : s.after ok calls = some s') : s'.Reached ok := by
  induction calls generalizing s with
  | nil =>
    cases h
    exact hs
  | cons c calls ih =>
    unfold Session.after at h
    simp only [Option.ite_none_right_eq_some, Option.bind_eq_some_iff] at h
    obtain ⟨hok, s₁, hnext, h⟩ := h
    exact ih (hs.step hok (Session.next_step hnext)) h

/-- What is computed of the session that calls on a new container lead to holds of one that is reached. -/
theorem Session.Reached.of_calls {ok : Session → Call → Prop} [∀ s c, Decidable (ok s c)] {P : Session → Prop}
    [DecidablePred P] (calls : List Call)
    (h : (newSession.bind (Session.after ok calls)).any (fun s => P s) = true) : ∃ s : Session, s.Reached ok ∧ P s := by
  obtain ⟨s, hs, hP⟩ := (Option.any_eq_true _ _).mp h
  obtain ⟨s₀, hs₀, hafter⟩ := Option.bind_eq_some_iff.mp hs
  exact ⟨s, (Session.Reached.start (newSession_start hs₀)).after hafter, of_decide_eq_true hP⟩

end IndexFs.Object
