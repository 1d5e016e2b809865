import IndexFs.Object.CoherentRuns

/-!
# A commit whose writes may fail

`commit_container_modification` of `object_system/ofs_metadata_cache.c` again, now with
what becomes of each write to the disk: `outcome n` is true if the `n`-th write of
the commit transfers all its bytes. The writes are logged in the order in which the
commit makes them.

The walk over the caches stops at the first write that fails, and
`flush_container_cache` does not look at what the walk returns. It writes the
superblock all the same, clears `FLAG_DIRTY` whatever comes of that, and the commit
returns 0.

Results:

* `commit_projects`: with a disk that takes every write this is the commit of
  `Object.Manager`.
* `commit_writes`: a commit always returns 0; it makes every write that is due if they
  all succeed, and else one of its writes failed.
* `commit_publishes_exact`: a commit publishes only what was written, and reports an
  error, exactly when all the writes that are due succeed.
-/

namespace IndexFs.Object.CommitWrites

open IndexFs.Tree (CacheStatus)

/-! ## Model of the code -/

/-- A write to the disk: a block or the superblock. -/
inductive DiskWrite
  | block (vbn : ℕ)
  | superBlock
  deriving DecidableEq, Repr

/-- A container and the writes of the commit so far, each with what became of it. -/
structure CommitState where
  ct : Container
  writes : List (DiskWrite × Bool)

/-- A part of a commit. -/
abbrev CommitM := EStateM ErrorCode CommitState

/-- A part of a commit that writes nothing to the disk. -/
def onContainer {α : Type} (x : ObjectM α) : CommitM α := zoom CommitState.ct (fun ct s => { s with ct }) x

/-- `ofs_update_block_fixup` and `ofs_update_super_block`: is the number of bytes written
the number asked for? -/
def updateDisk (outcome : ℕ → Bool) (w : DiskWrite) : CommitM Bool := do
  let written := outcome (← get).writes.length
  modify fun s => { s with writes := s.writes ++ [(w, written)] }
  return written

/-- `flush_container_dirty_cache` (lines 222–255). -/
def flushContainerDirtyCache (outcome : ℕ → Bool) (p : CachePtr) : CommitM Unit := do
  let c ← onContainer (getCache p)
  if c.state ≠ .dirty then return ()
  else if ← updateDisk outcome (.block c.vbn) then onContainer (Object.flushContainerDirtyCache p)
  else throw .update

/-- `flush_container_cache` (lines 257–287). -/
def flushContainerCache (outcome : ℕ → Bool) : CommitM Unit := do
  -- the value of `avl_walk_all` is dropped
  let _ ← codeOf ((← get).ct.metadataCache.forM (flushContainerDirtyCache outcome))
  if (← get).ct.dirty then
    -- a failed write is logged and no more
    let _ ← updateDisk outcome .superBlock
    onContainer (modify fun ct => { ct with dirty := false })

/-- `commit_container_modification` (lines 353–360). -/
def commitContainerModification (outcome : ℕ → Bool) (updates : ℕ → SystemOps) : CommitM Unit := do
  onContainer (validateAllObjects updates)
  flushContainerCache outcome
  onContainer cleanAllObjRootCache

/-! ## The commit of a disk that takes every write -/

theorem onContainer_projects {α : Type} (x : ObjectM α) : Projects CommitState.ct (onContainer x) x :=
  Projects.zoom (fun _ _ => rfl) x

/-- A write does not change the container. -/
theorem updateDisk_spec (outcome : ℕ → Bool) (w : DiskWrite) (s : CommitState) (F : ErrorCode → CommitState → Prop) :
    Ends (updateDisk outcome w) s (fun written s' => written = outcome s.writes.length ∧
      s' = { s with writes := s.writes ++ [(w, written)] }) F := ⟨rfl, rfl⟩

theorem flushContainerDirtyCache_projects {outcome : ℕ → Bool} (hdisk : ∀ n, outcome n = true) (p : CachePtr) :
    Projects CommitState.ct (flushContainerDirtyCache outcome p) (Object.flushContainerDirtyCache p) := by
  intro s
  unfold flushContainerDirtyCache
  cases hheap : s.ct.heap p with
  | none =>
    have hget : getCache p s.ct = .error .memory s.ct := by
      simp only [getCache, Bind.bind, EStateM.bind, MonadState.get, getThe, MonadStateOf.get, EStateM.get, hheap]
      rfl
    rw [ends_bind, onContainer, ends_zoom, ends_of_error hget]
    simp only [Object.flushContainerDirtyCache, Bind.bind, EStateM.bind, hget]
  | some c =>
    have hget : getCache p s.ct = .ok c s.ct := by
      simp only [getCache, Bind.bind, EStateM.bind, MonadState.get, getThe, MonadStateOf.get, EStateM.get, hheap]
      rfl
    rw [ends_bind, onContainer, ends_zoom, ends_of_ok hget]
    by_cases hd : c.state = .dirty
    · rw [if_neg (not_not.mpr hd)]
      refine (updateDisk_spec outcome _ s _).seq fun written s₁ hpost => ?_
      obtain ⟨rfl, rfl⟩ := hpost
      rw [if_pos (hdisk _)]
      exact onContainer_projects (Object.flushContainerDirtyCache p) _
    · rw [if_pos hd]
      unfold Object.flushContainerDirtyCache
      exact bind_eq_ok.mpr ⟨c, s.ct, hget, by rw [if_pos hd]; rfl⟩

/-- What ends a walk without failing writes does not come back to the caller. -/
theorem flushContainerDirtyCache_stops (p : CachePtr) (ct : Container) :
    Ends (Object.flushContainerDirtyCache p) ct (fun _ _ => True) fun e _ => e.stops = true := by
  have hget : ∀ ct, Ends (getCache p) ct (fun _ _ => True) fun e _ => e.stops = true := by
    intro ct
    unfold getCache
    rw [ends_bind, ends_get]
    cases ct.heap p with
    | none => rfl
    | some c => trivial
  have hclean : ∀ ct, Ends (setCacheState p .clean) ct (fun _ _ => True) fun e _ => e.stops = true := fun ct =>
    (hget ct).seq fun _ _ _ => trivial
  unfold Object.flushContainerDirtyCache
  refine (hget ct).seq fun c ct₁ _ => ?_
  split_ifs with hd hf
  · trivial
  all_goals
    unfold updateBlock
    rw [ends_bind, ends_modify]
  · refine (hclean _).seq fun _ ct₂ _ => ?_
    unfold freeContainerCache avlRemove
    rw [ends_bind, ends_get]
    split_ifs with hp
    · trivial
    · rfl
  · exact hclean _

theorem flushContainerCache_projects {outcome : ℕ → Bool} (hdisk : ∀ n, outcome n = true) :
    Projects CommitState.ct (flushContainerCache outcome) Object.flushContainerCache := by
  refine Projects.get fun s => ?_
  refine Projects.dropCode (Projects.forM (flushContainerDirtyCache_projects hdisk) _) (fun ct => ?_) fun s => ?_
  · exact Ends.forM (I := fun _ _ => True) trivial fun p _ ct _ => flushContainerDirtyCache_stops p ct
  · rw [ends_bind, ends_get]
    split_ifs with hd
    · refine (updateDisk_spec outcome _ s _).seq fun written s₁ hpost => ?_
      obtain ⟨rfl, rfl⟩ := hpost
      rfl
    · show EStateM.Result.ok () { s.ct with dirty := false } = .ok () s.ct
      rw [← Bool.eq_false_iff.mpr hd]

/-- With a disk that takes every write this is the commit of `Object.Manager`. -/
theorem commit_projects {outcome : ℕ → Bool} (hdisk : ∀ n, outcome n = true) (updates : ℕ → SystemOps) :
    Projects CommitState.ct (commitContainerModification outcome updates) (Object.commitContainerModification updates) :=
  (onContainer_projects _).bind fun _ => (flushContainerCache_projects hdisk).bind fun _ => onContainer_projects _

/-! ## What a commit is meant to do -/

/-- The cache has a block to write. -/
def IsDirty (ct : Container) (p : CachePtr) (c : BlockCache) : Prop := ct.heap p = some c ∧ c.state = .dirty

/-- What a commit is meant to do, where `ct₁` is the container it begins to flush. -/
structure PublishesWritten (outcome : ℕ → Bool) (updates : ℕ → SystemOps) (ct ct₁ : Container) : Prop where
  /-- The superblock is replaced only if every dirty block was written. -/
  published : ∀ s', s' = finalState (commitContainerModification outcome updates) ⟨ct, []⟩ →
    (.superBlock, true) ∈ s'.writes →
    ∀ p ∈ ct₁.metadataCache, ∀ c, IsDirty ct₁ p c → (.block c.vbn, true) ∈ s'.writes
  /-- A write that fails is reported. -/
  reported : ∀ s', s' = finalState (commitContainerModification outcome updates) ⟨ct, []⟩ →
    ∀ w, (w, false) ∈ s'.writes → ∃ e, commitContainerModification outcome updates ⟨ct, []⟩ = .error e s'
  /-- After a failed write `FLAG_DIRTY` is still set, and what was not written is still dirty. -/
  kept : ∀ s', s' = finalState (commitContainerModification outcome updates) ⟨ct, []⟩ →
    ∀ w, (w, false) ∈ s'.writes →
    (ct₁.dirty = true → s'.ct.dirty = true) ∧
    (∀ p ∈ ct₁.metadataCache, ∀ c, IsDirty ct₁ p c → (.block c.vbn, true) ∉ s'.writes →
      p ∈ s'.ct.metadataCache ∧ IsDirty s'.ct p c) ∧
    ∀ o ∈ ct₁.objInfoList, o.rootState = .dirty → (.block o.rootVbn, true) ∉ s'.writes →
      ∃ o' ∈ s'.ct.objInfoList, o'.objid = o.objid ∧ o'.rootState = .dirty

/-- The write that is due for a cache. -/
def dueWrite (ct : Container) (p : CachePtr) : Option DiskWrite :=
  match ct.heap p with
  | some c => if c.state = .dirty then some (.block c.vbn) else none
  | none => none

/-- The writes that are due when a commit begins to flush. -/
def dueWrites (ct : Container) : List DiskWrite :=
  ct.metadataCache.filterMap (dueWrite ct) ++ if ct.dirty then [.superBlock] else []

/-- The disk takes all of them. -/
def AllSucceed (outcome : ℕ → Bool) (ct : Container) : Prop := ∀ n < (dueWrites ct).length, outcome n = true

/-- The container's tree of caches has each cache once, and none that was freed. -/
structure CacheTree (ct : Container) : Prop where
  live : ∀ p ∈ ct.metadataCache, ∃ c, ct.heap p = some c
  nodup : ct.metadataCache.Nodup

/-! ## The walk over the caches -/

/-- Cleaning a cache, and freeing it if its object was closed, leaves the other caches alone. -/
theorem flushContainerDirtyCache_frame {ct : Container} {p : CachePtr} {c : BlockCache} (hp : p ∈ ct.metadataCache)
    (hc : ct.heap p = some c) :
    Ends (Object.flushContainerDirtyCache p) ct (fun _ ct' => ct'.dirty = ct.dirty ∧
      ∀ q, q ≠ p → ct'.heap q = ct.heap q ∧ (q ∈ ct.metadataCache → q ∈ ct'.metadataCache)) fun _ _ => False := by
  have hget : Ends (getCache p) ct (fun c' ct' => c' = c ∧ ct' = ct) fun _ _ => False := by
    unfold getCache
    rw [ends_bind, ends_get, hc]
    exact ⟨rfl, rfl⟩
  -- the block is written, and then the cache is clean
  have hclean : Ends (updateBlock c.vbn >>= fun _ => setCacheState p .clean) ct
      (fun _ ct' => ct' =
        { ct with
          heap := Function.update ct.heap p (some { c with state := .clean, flush := false })
          onDisk := Function.update ct.onDisk c.vbn true })
      fun _ _ => False := by
    unfold updateBlock setCacheState getCache
    rw [ends_bind, ends_modify, ends_bind, ends_bind, ends_get, hc]
    rfl
  unfold Object.flushContainerDirtyCache
  refine hget.seq fun c' ct' hpost => ?_
  obtain ⟨rfl, rfl⟩ := hpost
  split_ifs with hd hf
  · exact ⟨rfl, fun q _ => ⟨rfl, id⟩⟩
  · rw [← bind_assoc]
    refine hclean.seq fun _ ct₁ hct₁ => ?_
    subst hct₁
    unfold freeContainerCache avlRemove osFree
    rw [ends_bind, ends_get, if_pos hp]
    refine ⟨rfl, fun q hq => ⟨?_, fun hmem => (List.mem_erase_of_ne hq).mpr hmem⟩⟩
    exact (Function.update_of_ne hq _ _).trans (Function.update_of_ne hq _ _)
  · refine hclean.mono (fun _ ct₁ hct₁ => ?_) fun _ _ h => h
    subst hct₁
    exact ⟨rfl, fun q hq => ⟨Function.update_of_ne hq _ _, id⟩⟩

/-- The walk has the caches `l` before it, and all its writes succeeded so far; `due` are the
writes of the whole walk over the caches of `ct`. -/
structure Walking (outcome : ℕ → Bool) (ct : Container) (due : List DiskWrite) (l : List CachePtr) (s : CommitState) :
    Prop where
  nodup : l.Nodup
  same : ∀ p ∈ l, p ∈ s.ct.metadataCache ∧ s.ct.heap p = ct.heap p
  live : ∀ p ∈ l, ∃ c, ct.heap p = some c
  dirty : s.ct.dirty = ct.dirty
  writes : s.writes ++ (l.filterMap (dueWrite ct)).map (·, true) = due.map (·, true)
  succeeded : ∀ n < s.writes.length, outcome n = true

/-- The walk stopped at a write that failed. -/
def Stopped (outcome : ℕ → Bool) (ct : Container) (due : List DiskWrite) (s : CommitState) : Prop :=
  s.ct.dirty = ct.dirty ∧ (∃ w, (w, false) ∈ s.writes) ∧ ∃ n < due.length, outcome n = false

/-- One cache of the walk. -/
theorem Walking.step {outcome : ℕ → Bool} {ct : Container} {due : List DiskWrite} {p : CachePtr} {l : List CachePtr}
    {s : CommitState} (h : Walking outcome ct due (p :: l) s) :
    Ends (flushContainerDirtyCache outcome p) s (fun _ s' => Walking outcome ct due l s')
      fun e s' => e = .update ∧ Stopped outcome ct due s' := by
  obtain ⟨hmem, hheap⟩ := h.same p (by simp)
  obtain ⟨c, hc⟩ := h.live p (by simp)
  have hne : ∀ q ∈ l, q ≠ p := fun q hq hqp => (List.nodup_cons.mp h.nodup).1 (hqp ▸ hq)
  have hwrites := h.writes
  unfold flushContainerDirtyCache
  rw [ends_bind, onContainer, ends_zoom]
  unfold getCache
  rw [ends_bind, ends_get, hheap, hc]
  show Ends _ s _ _
  split_ifs with hd
  · -- a clean cache is not written
    have hdue : dueWrite ct p = none := by simp [dueWrite, hc, hd]
    rw [List.filterMap_cons_none hdue] at hwrites
    exact ⟨(List.nodup_cons.mp h.nodup).2, fun q hq => h.same q (by simp [hq]), fun q hq => h.live q (by simp [hq]),
      h.dirty, hwrites, h.succeeded⟩
  · have hdue : dueWrite ct p = some (.block c.vbn) := by simp [dueWrite, hc, not_not.mp hd]
    rw [List.filterMap_cons_some hdue, List.map_cons] at hwrites
    have hlen : s.writes.length < due.length := by
      have := congrArg List.length hwrites
      simp at this
      omega
    refine (updateDisk_spec outcome _ s _).seq fun written s₁ hpost => ?_
    obtain ⟨hwritten, rfl⟩ := hpost
    cases written with
    | false =>
      exact ⟨rfl, h.dirty, ⟨.block c.vbn, by simp⟩, s.writes.length, hlen, hwritten.symm⟩
    | true =>
      rw [if_pos rfl, onContainer, ends_zoom]
      refine (flushContainerDirtyCache_frame hmem (hheap.trans hc)).mono (fun _ ct' hpost => ?_) fun _ _ h => h.elim
      obtain ⟨hdirty, hframe⟩ := hpost
      refine ⟨(List.nodup_cons.mp h.nodup).2, fun q hq => ?_, fun q hq => h.live q (by simp [hq]),
        hdirty.trans h.dirty, ?_, fun n hn => ?_⟩
      · obtain ⟨hq₁, hq₂⟩ := h.same q (by simp [hq])
        obtain ⟨hq₃, hq₄⟩ := hframe q (hne q hq)
        exact ⟨hq₄ hq₁, hq₃.trans hq₂⟩
      · rw [List.append_assoc]
        exact hwrites
      · rw [List.length_append, List.length_singleton] at hn
        rcases Nat.lt_succ_iff_lt_or_eq.mp hn with hn | rfl
        · exact h.succeeded n hn
        · exact hwritten.symm

/-- The walk makes all its writes, or one of them fails. -/
theorem walk_spec (outcome : ℕ → Bool) {ct : Container} (h : CacheTree ct) :
    Ends (ct.metadataCache.forM (flushContainerDirtyCache outcome)) ⟨ct, []⟩
      (fun _ s' => Walking outcome ct (ct.metadataCache.filterMap (dueWrite ct)) [] s')
      fun e s' => e = .update ∧ Stopped outcome ct (ct.metadataCache.filterMap (dueWrite ct)) s' :=
  Ends.forM (I := fun l s => Walking outcome ct _ l s)
    ⟨h.nodup, fun _ hp => ⟨hp, rfl⟩, h.live, rfl, rfl, fun _ hn => absurd hn (Nat.not_lt_zero _)⟩
    fun _ _ _ hw => hw.step

/-! ## The commit -/

/-- The end of a flush writes the superblock if `FLAG_DIRTY` is set, and returns. -/
theorem superBlock_writes (outcome : ℕ → Bool) (s : CommitState) (F : ErrorCode → CommitState → Prop) :
    Ends (do
      if (← get).ct.dirty then
        let _ ← updateDisk outcome .superBlock
        onContainer (modify fun ct => { ct with dirty := false }) : CommitM Unit) s
      (fun _ s' => s'.writes = s.writes ++ if s.ct.dirty then [(.superBlock, outcome s.writes.length)] else []) F := by
  rw [ends_bind, ends_get]
  split_ifs with hd
  · refine (updateDisk_spec outcome _ s _).seq fun written s₁ hpost => ?_
    obtain ⟨rfl, rfl⟩ := hpost
    rfl
  · exact (List.append_nil _).symm

/-- All the writes that are due were made and succeeded, or one failed. -/
def Written (outcome : ℕ → Bool) (ct : Container) (s : CommitState) : Prop :=
  (AllSucceed outcome ct ∧ s.writes = (dueWrites ct).map (·, true)) ∨
    (¬ AllSucceed outcome ct ∧ ∃ w, (w, false) ∈ s.writes)

/-- All the blocks were written, and the superblock is due or not. -/
theorem Walking.written {outcome : ℕ → Bool} {ct : Container} {s s' : CommitState}
    (h : Walking outcome ct (ct.metadataCache.filterMap (dueWrite ct)) [] s)
    (hsuper : s'.writes = s.writes ++ if s.ct.dirty then [(.superBlock, outcome s.writes.length)] else []) :
    Written outcome ct s' := by
  have hwrites : s.writes = (ct.metadataCache.filterMap (dueWrite ct)).map (·, true) := by
    simpa using h.writes
  have hlen : s.writes.length = (ct.metadataCache.filterMap (dueWrite ct)).length := by
    rw [hwrites, List.length_map]
  have hsucceeded := h.succeeded
  rw [h.dirty] at hsuper
  unfold Written AllSucceed dueWrites
  by_cases hd : ct.dirty = true
  · rw [if_pos hd] at hsuper ⊢
    by_cases hlast : outcome s.writes.length = true
    · refine .inl ⟨fun n hn => ?_, ?_⟩
      · rw [List.length_append, ← hlen, List.length_singleton] at hn
        rcases Nat.lt_succ_iff_lt_or_eq.mp hn with hn | rfl
        · exact hsucceeded n hn
        · exact hlast
      · rw [hsuper, hlast, List.map_append, ← hwrites]
        rfl
    · refine .inr ⟨fun hall => hlast (hall _ ?_), .superBlock, ?_⟩
      · rw [List.length_append, ← hlen]
        exact Nat.lt_succ_self _
      · rw [hsuper, Bool.eq_false_iff.mpr hlast]
        simp
  · rw [if_neg hd, List.append_nil] at hsuper ⊢
    exact .inl ⟨fun n hn => hsucceeded n (hlen ▸ hn), hsuper.trans hwrites⟩

/-- A flush always returns 0. -/
theorem flushContainerCache_writes (outcome : ℕ → Bool) {ct : Container} (h : CacheTree ct) :
    Ends (flushContainerCache outcome) ⟨ct, []⟩ (fun _ s' => Written outcome ct s') fun _ _ => False := by
  unfold flushContainerCache
  rw [ends_bind, ends_get, ends_bind, ends_codeOf]
  refine (walk_spec outcome h).mono (fun _ s₁ hwalk => ?_) fun e s₁ hpost => ?_
  · exact (superBlock_writes outcome s₁ _).mono (fun _ s' hsuper => hwalk.written hsuper) fun _ _ h => h
  · obtain ⟨rfl, -, ⟨w, hw⟩, n, hn, hfail⟩ := hpost
    refine (superBlock_writes outcome s₁ _).mono (fun _ s' hsuper => .inr ⟨fun hall => ?_, w, ?_⟩) fun _ _ h => h
    · have hsucceed := hall n ((List.length_append ▸ Nat.lt_add_right _ hn : n < (dueWrites ct).length))
      rw [hfail] at hsucceed
      cases hsucceed
    · rw [hsuper]
      exact List.mem_append_left _ hw

/-- A commit always returns 0. -/
theorem commit_writes (outcome : ℕ → Bool) {updates : ℕ → SystemOps} {ct ct₁ : Container}
    (hval : validateAllObjects updates ct = .ok () ct₁) (h : CacheTree ct₁) :
    ∃ s', commitContainerModification outcome updates ⟨ct, []⟩ = .ok () s' ∧ Written outcome ct₁ s' := by
  have hends : Ends (commitContainerModification outcome updates) ⟨ct, []⟩ (fun _ s' => Written outcome ct₁ s')
      fun _ _ => False := by
    unfold commitContainerModification
    rw [ends_bind, onContainer, ends_zoom, ends_of_ok hval]
    exact (flushContainerCache_writes outcome h).seq fun _ s' hs' => hs'
  rcases ends_iff.mp hends with ⟨_, s', hrun, hs'⟩ | ⟨_, _, _, h⟩
  · exact ⟨s', hrun, hs'⟩
  · exact h.elim

/-- A commit publishes only what was written, and reports an error, exactly when all the
writes that are due succeed. -/
theorem commit_publishes_exact (outcome : ℕ → Bool) {updates : ℕ → SystemOps} {ct ct₁ : Container}
    (hval : validateAllObjects updates ct = .ok () ct₁) (h : CacheTree ct₁) :
    PublishesWritten outcome updates ct ct₁ ↔ AllSucceed outcome ct₁ := by
  obtain ⟨s', hrun, hwritten⟩ := commit_writes outcome hval h
  have hfinal : finalState (commitContainerModification outcome updates) ⟨ct, []⟩ = s' := by
    unfold finalState
    rw [hrun]
  constructor
  · intro hp
    rcases hwritten with ⟨hall, -⟩ | ⟨-, w, hw⟩
    · exact hall
    · obtain ⟨e, he⟩ := hp.reported s' hfinal.symm w hw
      rw [hrun] at he
      cases he
  · intro hall
    obtain ⟨-, hwrites⟩ | ⟨hnot, -⟩ := hwritten
    · have hnone : ∀ w, (w, false) ∉ s'.writes := by
        intro w hw
        rw [hwrites] at hw
        simp at hw
      refine ⟨fun s hs _ p hp c hc => ?_, fun s hs w hw => ?_, fun s hs w hw => ?_⟩
      · rw [hs, hfinal, hwrites]
        refine List.mem_map_of_mem (List.mem_append_left _ (List.mem_filterMap.mpr ⟨p, hp, ?_⟩))
        simp [dueWrite, hc.1, hc.2]
      · exact absurd (hfinal ▸ hs ▸ hw) (hnone w)
      · exact absurd (hfinal ▸ hs ▸ hw) (hnone w)
    · exact absurd hall hnot

/-! ## The first commit of a new container -/

/-- The container that a commit flushes if the trees of caches were coherent before. -/
theorem cacheTree_of_coherent {ct ct₁ : Container} (h : Coherent (fun _ => False) (fun _ => False) ct)
    {updates : ℕ → SystemOps} (hval : validateAllObjects updates ct = .ok () ct₁) : CacheTree ct₁ := by
  have h₁ := (ends_of_ok hval).mp (validateAllObjects_coherent h (fun _ _ => id) updates)
  exact ⟨h₁.live, h₁.nodup⟩

/-- A new container, what its first commit flushes, and where that commit ends when its second write
fails: it has put a superblock on the disk that names an inode which was not written. -/
theorem failingCommit_run : ∃ (s : Session) (ct₁ : Container) (s' : CommitState), s.Start ∧
    validateAllObjects (fun _ => []) s.ct = .ok () ct₁ ∧ CacheTree ct₁ ∧
    commitContainerModification (fun n => n ≠ 1) (fun _ => []) ⟨s.ct, []⟩ = .ok () s' ∧
    s'.writes = [(.block baseObjInode, true), (.block spaceObjInode, false), (.superBlock, true)] ∧
    s'.ct.dirty = false := by
  have hrun : newSession.any (fun s => (okOf (validateAllObjects fun _ => []) s.ct).isSome ∧
      (okOf (commitContainerModification (fun n => n ≠ 1) fun _ => []) ⟨s.ct, []⟩).any (fun r =>
        r.2.writes = [(.block baseObjInode, true), (.block spaceObjInode, false), (.superBlock, true)] ∧
          r.2.ct.dirty = false) = true) = true := by
    decide +kernel
  obtain ⟨s, hs, hrun⟩ := (Option.any_eq_true _ _).mp hrun
  obtain ⟨hval, hcommit⟩ := of_decide_eq_true hrun
  obtain ⟨⟨_, ct₁⟩, hval⟩ := Option.isSome_iff_exists.mp hval
  obtain ⟨⟨_, s'⟩, hcommit, hend⟩ := (Option.any_eq_true _ _).mp hcommit
  obtain ⟨hwrites, hdirty⟩ := of_decide_eq_true hend
  have hstart := newSession_start hs
  have hval₁ := okOf_eq_some.mp hval
  exact ⟨s, ct₁, s', hstart, hval₁, cacheTree_of_coherent hstart.clear.coherent hval₁, okOf_eq_some.mp hcommit,
    hwrites, hdirty⟩

/-- The failing commit reports nothing. -/
theorem commit_publishes_unwritten : ∃ (s : Session) (ct₁ : Container), s.Start ∧
    validateAllObjects (fun _ => []) s.ct = .ok () ct₁ ∧ CacheTree ct₁ ∧
    ¬ PublishesWritten (fun n => n ≠ 1) (fun _ => []) s.ct ct₁ := by
  obtain ⟨s, ct₁, s', hstart, hval, htree, hcommit, hwrites, -⟩ := failingCommit_run
  refine ⟨s, ct₁, hstart, hval, htree, fun hp => ?_⟩
  have hfinal : s' = finalState (commitContainerModification (fun n => n ≠ 1) fun _ => []) ⟨s.ct, []⟩ := by
    unfold finalState
    rw [hcommit]
  have hfailed : (.block spaceObjInode, false) ∈ s'.writes := by
    rw [hwrites]
    simp
  obtain ⟨e, he⟩ := hp.reported s' hfinal _ hfailed
  rw [hcommit] at he
  cases he

/-- With a disk that takes every write the first commit publishes what it wrote. -/
theorem commit_publishes_new : ∃ (s : Session) (ct₁ : Container), s.Start ∧
    PublishesWritten (fun _ => true) (fun _ => []) s.ct ct₁ := by
  obtain ⟨s, ct₁, -, hstart, hval, htree, -⟩ := failingCommit_run
  exact ⟨s, ct₁, hstart, (commit_publishes_exact _ hval htree).mpr fun _ _ => rfl⟩

end IndexFs.Object.CommitWrites
