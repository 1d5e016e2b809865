import IndexFs.Tree.Dirty

/-!
# The block on top of the cursor

While an operation edits the block under the cursor, the rest of the tree stays
represented. `Top m t up i pos ib L` is the part of `Rep` that does not look into
that block: it is the block `i` below the path `up`, it holds `ib`, and the cursor
is at `pos`. `L` are the other blocks in use; each step keeps them (`SameOn`).

* `Rep.toTop`, `Top.toRep`: into and out of the editing of a block.
* `Top.putIb`, `Top.dirty`, `Top.alloc`, `Top.putOther`, `Top.pop`: the steps.
-/

namespace IndexFs.Tree

open IndexFs.Multiway

variable {σ : Type} {m : ContainerModel σ} {t t' t'' : ObjectTree σ} {H h : ℕ}

/-- The block `i` below the path `up` holds `ib`, with the cursor at `pos`; the blocks
`L` are in use besides. -/
structure Top (m : ContainerModel σ) (t : ObjectTree σ) (up : TPath H h) (i pos : ℕ) (ib : IndexBlock)
    (L : List ℕ) : Prop where
  inv : m.Inv t.ct
  stack : t.stack = ⟨refOf up i, pos⟩ :: frames up
  ib : ibIn t (refOf up i) = some ib
  path : HoldsPath m t up i
  owned : Owned m t (i :: (up.spine ++ up.side ++ L))

theorem SameOn.refl {l : List ℕ} : SameOn m t t l := fun _ _ => ⟨rfl, rfl⟩

theorem SameOn.trans {l : List ℕ} (h1 : SameOn m t t' l) (h2 : SameOn m t' t'' l) : SameOn m t t'' l :=
  fun v hv => ⟨(h2 v hv).1.trans (h1 v hv).1, (h2 v hv).2.trans (h1 v hv).2⟩

section Steps

variable {up : TPath H h} {i pos : ℕ} {ib ib' : IndexBlock} {L L' : List ℕ}

theorem Top.not_mem (ht : Top m t up i pos ib L) : i ∉ up.spine ++ up.side ++ L :=
  (List.nodup_cons.mp ht.owned.nodup).1

theorem Top.perm (ht : Top m t up i pos ib L) (hL : L.Perm L') : Top m t up i pos ib L' :=
  ⟨ht.inv, ht.stack, ht.ib, ht.path, ht.owned.perm ((hL.append_left _).cons i)⟩

/-- The block gets new content. -/
theorem Top.onlyAt (ht : Top m t up i pos ib L) (ho : OnlyAt t t' (refOf up i))
    (hib : ibIn t' (refOf up i) = some ib') : Top m t' up i pos ib' L ∧ SameOn m t t' L := by
  have hi := ht.not_mem
  refine ⟨⟨ho.ct ▸ ht.inv, ho.stack.trans ht.stack, hib, ht.path.onlyAt ho fun h => hi ?_, ?_⟩,
    ho.sameOn fun h => hi ?_⟩
  · exact List.mem_append_left L h
  · exact ht.owned.congr fun v hv => ho.ct ▸ (ht.owned.used v hv).1
  · exact List.mem_append_right _ h

theorem Top.putIb (ht : Top m t up i pos ib L) (ib' : IndexBlock) :
    Top m (putIb t (refOf up i) ib') up i pos ib' L ∧ SameOn m t (putIb t (refOf up i) ib') L :=
  ht.onlyAt (putIb_onlyAt _ _) (ibIn_putIb ht.ib)

/-- The cursor moves within the block. -/
theorem Top.seek {pos' : ℕ} (ht : Top m t up i pos ib L) (hco : CursorOnly t t')
    (hstack : t'.stack = ⟨refOf up i, pos'⟩ :: frames up) : Top m t' up i pos' ib L where
  inv := hco.ct ▸ ht.inv
  stack := hstack
  ib := (hco.ibIn _).trans ht.ib
  path := ht.path.congr (hco.sameOn _) hco.rootIb hco.rootVbn
  owned := ht.owned.congr fun v hv => hco.ct ▸ (ht.owned.used v hv).1

/-- Another block gets new content. -/
theorem Top.onlyOther {n : ℕ} (ht : Top m t up i pos ib (n :: L)) (ho : OnlyAt t t' (.block n)) :
    Top m t' up i pos ib (n :: L) ∧ SameOn m t t' L := by
  have hnodup := ht.owned.nodup
  have hn : n ∉ i :: (up.spine ++ up.side ++ L) := by
    have hperm : (i :: (up.spine ++ up.side ++ n :: L)).Perm (n :: i :: (up.spine ++ up.side ++ L)) :=
      (List.perm_middle.cons i).trans (List.Perm.swap n i _)
    exact (List.nodup_cons.mp (hperm.nodup_iff.mp hnodup)).1
  have hsame : ∀ v, v ≠ n → t'.caches v = t.caches v := fun v hv =>
    ho.caches v fun h => hv (by injection h with h; exact h.symm)
  have hin : n ≠ i := fun h => hn (by simp [h])
  refine ⟨⟨ho.ct ▸ ht.inv, ho.stack.trans ht.stack, ?_, ?_, ?_⟩, fun v hv => ⟨hsame v ?_, by rw [ho.ct]⟩⟩
  · rw [← ht.ib]
    cases up with
    | top => exact congrArg some (ho.rootIb CacheRef.noConfusion)
    | down j b a up =>
      change ibIn t' (.block i) = ibIn t (.block i)
      rw [ibIn_block, ibIn_block, hsame i hin.symm]
  · refine ht.path.congr (fun v hv => ⟨hsame v ?_, by rw [ho.ct]⟩) (ho.rootIb CacheRef.noConfusion)
      ho.rootVbn
    intro h
    exact hn (h ▸ List.mem_cons_of_mem _ (List.mem_append_left _ hv))
  · exact ht.owned.congr fun v hv => ho.ct ▸ (ht.owned.used v hv).1
  · intro h
    exact hn (by rw [← h]; simp [hv])

variable {env : TreeEnv σ} {fails : Prop}

/-- `set_ib_dirty` renumbers the path. -/
theorem Top.dirty (hl : LawfulEnv env m fails) {up : TPath H (h + 1)} (ht : Top m t up i pos ib L) :
    Ends (setIbDirty env) t
      (fun _ t' => ∃ j l, l.length = up.spine.length ∧ Top m t' (up.relabel l) j pos ib L ∧
        SameOn m t t' L ∧ t'.maxDepth = t.maxDepth)
      (fun _ _ => fails) := by
  have hsub : Owned m t (i :: (up.spine ++ up.side)) :=
    ht.owned.sublist ((List.sublist_append_left _ L).cons_cons i)
  refine (setIbDirty_spec hl ht.inv ht.stack ht.ib ht.path hsub).mono (fun _ t' hd => ?_) fun _ _ h => h
  obtain ⟨j, l, hlen, hst, hib, hup, hm⟩ := hd
  have hown : Owned m t (i :: up.spine ++ (up.side ++ L)) := by
    rw [List.cons_append, ← List.append_assoc]
    exact ht.owned
  refine ⟨j, l, hlen, ⟨hm.inv, ?_, ?_, hup, ?_⟩, (hm.sameOn hown).mono fun v hv => by simp [hv],
    hm.maxDepth⟩
  · rw [hst, refOf_relabel]
    rfl
  · rw [refOf_relabel]
    exact hib
  · rw [Path.spine_relabel up hlen, Path.side_relabel, List.append_assoc]
    exact hm.owned hown

/-- `alloc_obj_block_and_cache` adds a block with an empty cache. -/
theorem Top.alloc (hl : LawfulEnv env m fails) (ht : Top m t up i pos ib L) :
    Ends (allocObjBlockAndCache env) t
      (fun n t' => Top m t' up i pos ib (n :: L) ∧ SameOn m t t' L ∧ (t'.caches n).isSome ∧
        t'.maxDepth = t.maxDepth)
      (fun _ _ => fails) := by
  unfold allocObjBlockAndCache
  rw [ends_bind, ends_onCt]
  refine (hl.alloc t.ct ht.inv).mono (fun n c halloc => ?_) fun _ _ h => h.1
  obtain ⟨hn0, hfresh, hn, hk⟩ := halloc
  refine Ends.bind (ends_codeOf.mpr (ends_onCt.mpr
    ((hl.allocCache c hk.1).mono (fun _ c' hk' => ?_) fun e c' h => ?_)))
  · have hkept : ∀ v ∈ m.used t.ct, v ∈ m.used c' ∧ m.stored c' v = m.stored t.ct v := fun v hv =>
      ⟨(hk'.2 v (hk.2 v hv).1).1, (hk'.2 v (hk.2 v hv).1).2.trans (hk.2 v hv).2⟩
    have hne : ∀ v ∈ m.used t.ct, v ≠ n := fun v hv h => hfresh (h ▸ hv)
    have hsame : ∀ v ∈ m.used t.ct, Function.update t.caches n
        (some { state := .empty, flush := false, ib := none }) v = t.caches v := fun v hv =>
      Function.update_of_ne (hne v hv) _ _
    have hu : ∀ v ∈ i :: (up.spine ++ up.side ++ L), v ∈ m.used t.ct := fun v hv =>
      (ht.owned.used v hv).1
    dsimp only
    rw [ends_bind, ends_modify, ends_pure]
    refine ⟨⟨hk'.1, ht.stack, ?_, ?_, ?_⟩, fun v hv => ⟨hsame v (hu v (by simp [hv])), ?_⟩, by simp, rfl⟩
    · rw [← ht.ib]
      cases up with
      | top => rfl
      | down j b a up =>
        change ibIn _ (.block i) = ibIn t (.block i)
        rw [ibIn_block, ibIn_block]
        exact congrArg (fun x => Option.bind x BlockCache.ib) (hsame i (hu i (by simp)))
    · refine ht.path.congr (fun v hv => ?_) rfl rfl
      have hv' : v ∈ m.used t.ct := hu v (List.mem_cons_of_mem _ (List.mem_append_left _ hv))
      exact ⟨hsame v hv', (hkept v hv').2⟩
    · have hperm : (n :: i :: (up.spine ++ up.side ++ L)).Perm (i :: (up.spine ++ up.side ++ n :: L)) :=
        ((List.perm_middle.cons i).trans (List.Perm.swap n i _)).symm
      refine Owned.perm ⟨List.nodup_cons.mpr ⟨fun h => hfresh (hu n h), ht.owned.nodup⟩, fun v hv => ?_⟩
        hperm
      rcases List.mem_cons.mp hv with rfl | hv
      · exact ⟨(hk'.2 v hn).1, hn0⟩
      · exact ⟨(hkept v (hu v hv)).1, (ht.owned.used v hv).2⟩
    · exact (hkept v (hu v (by simp [hv]))).2
  · obtain ⟨hfail, hstop, hk'⟩ := h
    rw [if_neg (by simp [hstop])]
    dsimp only
    rw [ends_bind, ends_codeOf, ends_onCt]
    refine (hl.free c' n hk'.1 (hk'.2 n hn).1).mono (fun _ _ _ => hfail) fun e _ h => ?_
    rw [if_neg (by simp [h.2.1])]
    exact hfail

/-! ## Into and out of a block -/

theorem Rep.toTop {before : List (TNode h × KeyValue)} {c : TNode h} {after : List (KeyValue × TNode h)}
    {up : TPath H (h + 1)} {X : List ℕ} (hr : Rep m t (.down i before after up) c X) :
    Top m t up i (cursorAt before)
      (image (allocOf up) (isLarge h) (flatBefore before) (num c) (flatAfter after))
      (Node.labelsBefore before ++ Node.labelsAfter after ++ c.labels ++ X) := by
  refine ⟨hr.inv, hr.stack, hr.path.1, hr.path.2.2.2, hr.owned.perm ?_⟩
  classical
  simp only [Path.spine, Path.side]
  refine List.perm_iff_count.mpr fun x => ?_
  simp only [List.count_append, List.count_cons]
  omega

theorem Top.toRep {before : List (TNode h × KeyValue)} {c : TNode h} {after : List (KeyValue × TNode h)}
    {up : TPath H (h + 1)} {X : List ℕ} (ht : Top m t up i (cursorAt before)
      (image (allocOf up) (isLarge h) (flatBefore before) (num c) (flatAfter after)) L)
    (hbefore : ∀ x ∈ before, Held m t x.1) (hc : Held m t c) (hafter : ∀ x ∈ after, Held m t x.2)
    (hL : L.Perm (Node.labelsBefore before ++ Node.labelsAfter after ++ c.labels ++ X)) :
    Rep m t (.down i before after up) c X := by
  refine ⟨ht.inv, ht.stack, ⟨ht.ib, hbefore, hafter, ht.path⟩, hc, (ht.perm hL).owned.perm ?_⟩
  classical
  simp only [Path.spine, Path.side]
  refine List.perm_iff_count.mpr fun x => ?_
  simp only [List.count_append, List.count_cons]
  omega

/-- `pop_cache_stack`: the block above comes on top. -/
theorem Top.pop {before : List (TNode h × KeyValue)} {after : List (KeyValue × TNode h)}
    {up : TPath H (h + 1)} {j : ℕ} (ht : Top m t (.down j before after up) i pos ib L)
    (hco : CursorOnly t t') (hstack : t'.stack = frames (.down j before after up)) :
    Top m t' up j (cursorAt before)
      (image (allocOf up) (isLarge h) (flatBefore before) i (flatAfter after))
      (i :: (Node.labelsBefore before ++ Node.labelsAfter after ++ L)) := by
  have hown : Owned m t' _ := ht.owned.congr fun v hv => hco.ct ▸ (ht.owned.used v hv).1
  refine ⟨hco.ct ▸ ht.inv, hstack, (hco.ibIn _).trans ht.path.1,
    ht.path.2.2.2.congr (hco.sameOn _) hco.rootIb hco.rootVbn, hown.perm ?_⟩
  classical
  simp only [Path.spine, Path.side]
  refine List.perm_iff_count.mpr fun x => ?_
  simp only [List.count_append, List.count_cons]
  omega

end Steps

end IndexFs.Tree
