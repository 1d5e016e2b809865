import IndexFs.Tree.Represent

/-!
# Moving the cursor

Where the functions that move the cursor of a tree end: `get_next_ie`,
`get_prev_ie`, `push_cache_stack`, `pop_cache_stack`, `get_current_ie`. They change
the cursor and read blocks into caches; the tree `p.fill c` stays the same.
-/

namespace IndexFs.Tree

open IndexFs.Multiway

variable {σ : Type} {m : ContainerModel σ} {t t' : ObjectTree σ} {H h : ℕ} {X : List ℕ}

/-! ## Another cut of the block on top -/

/-- Only the cursor differs. -/
structure CursorOnly (t t' : ObjectTree σ) : Prop where
  caches : t'.caches = t.caches
  ct : t'.ct = t.ct
  rootIb : t'.rootIb = t.rootIb
  rootVbn : t'.rootVbn = t.rootVbn

theorem CursorOnly.sameOn (h : CursorOnly t t') (l : List ℕ) : SameOn m t t' l := fun v _ =>
  ⟨congrFun h.caches v, by rw [h.ct]⟩

theorem CursorOnly.ibIn (h : CursorOnly t t') (ref : CacheRef) : ibIn t' ref = Tree.ibIn t ref := by
  cases ref with
  | root => exact congrArg some h.rootIb
  | block v => unfold Tree.ibIn; rw [h.caches]

theorem setStack_cursorOnly (s : List Frame) : CursorOnly t { t with stack := s } := ⟨rfl, rfl, rfl, rfl⟩

section Recut

variable {i : ℕ} {before before' : List (TNode h × KeyValue)} {c c' : TNode h}
  {after after' : List (KeyValue × TNode h)} {up : TPath H (h + 1)}

theorem image_recut {alloc : ℕ} (hchain : chain before c after = chain before' c' after') :
    image alloc (isLarge h) (flatBefore before) (num c) (flatAfter after) =
      image alloc (isLarge h) (flatBefore before') (num c') (flatAfter after') := by
  apply image_congr
  unfold flatBefore flatAfter
  rw [chain_map, chain_map, hchain]

/-- The cursor moves to another entry of its block. -/
theorem Rep.recut (hr : Rep m t (.down i before after up) c X)
    (hchain : chain before c after = chain before' c' after') (hco : CursorOnly t t')
    (hstack : t'.stack = frames (.down i before' after' up)) :
    Rep m t' (.down i before' after' up) c' X := by
  obtain ⟨hib, hbefore, hafter, hup⟩ := hr.path
  have hall : (∀ x ∈ before', Held m t x.1) ∧ Held m t c' ∧ ∀ x ∈ after', Held m t x.2 := by
    rw [← forall_chain (Held m t), ← hchain, forall_chain (Held m t)]
    exact ⟨hbefore, hr.child, hafter⟩
  have hlabels : (Node.plug i before c after).labels = (Node.plug i before' c' after').labels := by
    unfold Node.plug
    rw [hchain]
  have hheld : ∀ n : TNode h, Held m t n → Held m t' n := fun n hn => hn.congr (hco.sameOn _)
  refine ⟨hco.ct ▸ hr.inv, hstack, ⟨?_, fun x hx => hheld _ (hall.1 x hx), fun x hx =>
    hheld _ (hall.2.2 x hx), hup.congr (hco.sameOn _) hco.rootIb hco.rootVbn⟩, hheld _ hall.2.1, ?_⟩
  · rw [hco.ibIn, hib, image_recut hchain]
  · rw [Node.labels_plug, Node.labels_plug] at hlabels
    refine (hr.owned.perm ?_).congr fun v hv => hco.ct ▸ ((hr.owned.perm ?_).used v hv).1
    all_goals
    · simp only [Path.spine, Path.side, List.cons_append] at hlabels ⊢
      have hl := List.cons.inj hlabels
      classical
      refine List.perm_iff_count.mpr fun x => ?_
      have hcount := congrArg (List.count x) hl.2
      simp only [List.count_append, List.count_cons] at hcount ⊢
      omega

/-- The tree is the same. -/
theorem fill_recut (hchain : chain before c after = chain before' c' after') :
    (Path.down i before after up).fill c = (Path.down i before' after' up).fill c' := by
  simp only [Path.fill, Node.plug, hchain]

end Recut

/-! ## `get_next_ie` and `get_prev_ie` -/

section Step

variable {i : ℕ} {before : List (TNode h × KeyValue)} {c c' : TNode h} {kv : KeyValue}
  {after : List (KeyValue × TNode h)} {up : TPath H (h + 1)} {F : ErrorCode → ObjectTree σ → Prop}

theorem cursorAt_concat (b : TNode h) :
    cursorAt (before ++ [(b, kv)]) = cursorAt before + ieLen (isLarge h) kv := by
  unfold cursorAt
  rw [flatBefore_append, posOf_append]
  simp

theorem Rep.next (hr : Rep m t (.down i before ((kv, c') :: after) up) c X) :
    Rep m { t with stack := ⟨refOf up i, cursorAt (before ++ [(c, kv)])⟩ :: frames up }
      (.down i (before ++ [(c, kv)]) after up) c' X :=
  hr.recut (chain_concat before c kv c' after).symm (setStack_cursorOnly _) rfl

theorem Rep.prev (hr : Rep m t (.down i (before ++ [(c', kv)]) after up) c X) :
    Rep m { t with stack := ⟨refOf up i, cursorAt before⟩ :: frames up }
      (.down i before ((kv, c) :: after) up) c' X :=
  hr.recut (chain_concat before c' kv c after) (setStack_cursorOnly _) rfl

theorem curIe_len_ne_zero : (curIe before c after).len ≠ 0 := by
  cases after with
  | nil =>
    change (endIe (isLarge h)).len ≠ 0
    unfold endIe entrySize
    split_ifs <;> simp
  | cons x after => exact (ieLen_pos (isLarge h) x.1).ne'

/-- `get_next_ie` goes to the next entry of the block. -/
theorem getNextIe_spec (hr : Rep m t (.down i before ((kv, c') :: after) up) c X) :
    Ends (getNextIe : TreeM σ Unit) t
      (fun _ t' => Rep m t' (.down i (before ++ [(c, kv)]) after up) c' X ∧
        t'.maxDepth = t.maxDepth ∧ CursorOnly t t') F := by
  unfold getNextIe
  rw [ends_bind, ends_top hr.stack, ends_bind, ends_currentIe hr, if_neg (by simp),
    ends_bind, ends_getIb hr.topIb, ends_bind]
  unfold setPosition
  rw [ends_modify, hr.stack]
  have hpos : cursorAt before + (curIe before c ((kv, c') :: after)).len =
      cursorAt (before ++ [(c, kv)]) := by
    rw [cursorAt_concat]
    rfl
  have hlt : cursorAt (before ++ [(c, kv)]) < (image (allocOf up) (isLarge h) (flatBefore before)
      (num c) (flatAfter ((kv, c') :: after))).realSize := by
    have hend : 0 < endLen (isLarge h) := by
      unfold endLen entrySize
      split_ifs <;> omega
    rw [cursorAt_concat, image_realSize]
    simp only [cursorAt, flatAfter_cons, List.map_cons, sizeOfKvs_cons]
    omega
  dsimp only [frames]
  rw [hpos, if_neg (not_le.mpr hlt)]
  have hr' := hr.next
  rw [ends_bind, ends_currentIe hr', if_neg curIe_len_ne_zero, ends_pure]
  exact ⟨hr', rfl, setStack_cursorOnly _⟩

/-- `get_prev_ie` goes to the entry before, if there is one in the block. -/
theorem getPrevIe_spec (hr : Rep m t (.down i (before ++ [(c', kv)]) after up) c X) :
    Ends (getPrevIe : TreeM σ PrevResult) t
      (fun r t' => r = .entry ∧ Rep m t' (.down i before ((kv, c) :: after) up) c' X ∧
        t'.maxDepth = t.maxDepth) F := by
  have hlen : lastLen (isLarge h) entrySize (flatBefore (before ++ [(c', kv)])) = ieLen (isLarge h) kv := by
    simp [lastLen]
  have hpos : cursorAt (before ++ [(c', kv)]) = cursorAt before + ieLen (isLarge h) kv :=
    cursorAt_concat c'
  have hge : beginEntryOff < cursorAt before := by
    unfold cursorAt posOf beginEntryOff indexBlockSize
    omega
  unfold getPrevIe
  rw [ends_bind, ends_top hr.stack, ends_bind, ends_currentIe hr, curIe_prevLen, hlen]
  dsimp only
  rw [if_neg (by omega), ends_bind]
  unfold setPosition
  rw [ends_modify, hr.stack]
  dsimp only [frames]
  rw [hpos, Nat.add_sub_cancel]
  have hr' := hr.prev
  rw [ends_bind, ends_currentIe hr', curIe_prevLen, if_neg, ends_pure]
  · exact ⟨rfl, hr', rfl⟩
  · cases before using List.reverseRecOn with
    | nil => simp [lastLen, entrySize]
    | append_singleton l x => simp [lastLen, (ieLen_pos (isLarge h) x.2).ne']

end Step

/-! ## `push_cache_stack` and `pop_cache_stack` -/

theorem ends_cacheVbn {up : TPath H h} {i : ℕ} (hup : HoldsPath m t up i) {Q : ℕ → ObjectTree σ → Prop}
    {F : ErrorCode → ObjectTree σ → Prop} : Ends (cacheVbn (refOf up i) : TreeM σ ℕ) t Q F ↔ Q i t := by
  cases up with
  | top =>
    obtain rfl : t.rootVbn = i := hup
    rfl
  | down j b a up => rfl

theorem ends_onCt {α : Type} {x : EStateM ErrorCode σ α} {Q : α → ObjectTree σ → Prop}
    {F : ErrorCode → ObjectTree σ → Prop} : Ends (onCt x) t Q F ↔
      Ends x t.ct (fun a c => Q a { t with ct := c }) (fun e c => F e { t with ct := c }) := ends_zoom

/-- Reading the blocks in use leaves them alone. -/
structure ReadOnly (m : ContainerModel σ) (t t' : ObjectTree σ) : Prop where
  inv : m.Inv t'.ct
  used : ∀ v ∈ m.used t.ct, v ∈ m.used t'.ct
  blockAt : ∀ v ∈ m.used t.ct, blockAt m t' v = Tree.blockAt m t v
  caches : ∀ v bc, t.caches v = some bc → t'.caches v = some bc
  rootIb : t'.rootIb = t.rootIb
  rootVbn : t'.rootVbn = t.rootVbn

theorem ReadOnly.ibIn (h : ReadOnly m t t') {ref : CacheRef} {ib : IndexBlock}
    (hib : ibIn t ref = some ib) : Tree.ibIn t' ref = some ib := by
  cases ref with
  | root => exact (congrArg some h.rootIb).trans hib
  | block v =>
    rw [ibIn_block] at hib ⊢
    cases hc : t.caches v with
    | none => simp [hc] at hib
    | some bc => rw [h.caches v bc hc, ← hc]; exact hib

theorem ReadOnly.held (h : ReadOnly m t t') {n : TNode H} (hn : Held m t n)
    (hu : ∀ v ∈ n.labels, v ∈ m.used t.ct) : Held m t' n :=
  Node.Forall.imp_labels hn fun _ _ hb hP => (h.blockAt _ (hu _ hb)).trans hP

theorem ReadOnly.path (hro : ReadOnly m t t') {p : TPath H h} {v : ℕ} (hp : HoldsPath m t p v)
    (hu : ∀ v ∈ p.side, v ∈ m.used t.ct) : HoldsPath m t' p v := by
  induction p generalizing v with
  | top => exact hro.rootVbn.trans hp
  | @down h i before after up ih =>
    obtain ⟨hib, hbefore, hafter, hup⟩ := hp
    simp only [Path.side, List.mem_append] at hu
    refine ⟨hro.ibIn hib, fun x hx => hro.held (hbefore x hx) fun v hv => hu v ?_, fun x hx =>
      hro.held (hafter x hx) fun v hv => hu v ?_, ih hup fun v hv => hu v (.inr hv)⟩
    · exact .inl (.inl (List.mem_flatMap.mpr ⟨x, hx, hv⟩))
    · exact .inl (.inr (List.mem_flatMap.mpr ⟨x, hx, hv⟩))

variable {env : TreeEnv σ} {fails : Prop}

/-- `index_block_read` of a block in use other than the one on top. -/
theorem indexBlockRead_spec (hl : LawfulEnv env m fails) {f : Frame} {fs : List Frame} {up : TPath H h}
    {i v : ℕ} {ib : IndexBlock} (hinv : m.Inv t.ct) (hstack : t.stack = f :: fs)
    (hf : f.cache = refOf up i) (hup : HoldsPath m t up i) (hne : i ≠ v) (hused : v ∈ m.used t.ct)
    (hib : blockAt m t v = some ib) :
    Ends (indexBlockRead env v) t
      (fun ref t' => ref = .block v ∧ ibIn t' (.block v) = some ib ∧ ReadOnly m t t' ∧
        t'.stack = t.stack ∧ t'.maxDepth = t.maxDepth)
      (fun _ _ => False) := by
  unfold indexBlockRead
  rw [ends_bind, ends_top hstack, hf, ends_bind, ends_cacheVbn hup, if_neg hne, ends_bind, ends_get]
  unfold blockAt at hib
  cases hc : t.caches v with
  | some bc =>
    rw [hc] at hib
    refine ⟨rfl, ?_, ⟨hinv, fun _ h => h, fun _ _ => rfl, fun _ _ h => h, rfl, rfl⟩, rfl, rfl⟩
    rw [ibIn_block, hc]
    exact hib
  | none =>
    rw [hc] at hib
    dsimp only at hib ⊢
    rw [ends_bind, ends_codeOf, ends_onCt]
    have hstored : ∀ c', m.Keeps (m.used t.ct) t.ct c' → ∀ w ∈ m.used t.ct,
        m.stored c' w = m.stored t.ct w := fun c' hk w hw => (hk.2 w hw).2
    refine (hl.read t.ct v ib hinv hused hib).mono (fun bc c' h => ?_) fun _ _ h => h.elim
    obtain ⟨hbc, hk⟩ := h
    rw [ends_bind, ends_modify, ends_pure]
    refine ⟨rfl, ?_, ⟨hk.1, fun w hw => (hk.2 w hw).1, fun w hw => ?_, fun w bc' hw => ?_, rfl, rfl⟩,
      rfl, rfl⟩
    · simp [ibIn_block, hbc]
    · unfold blockAt
      by_cases hwv : w = v
      · subst hwv
        simp [hc, hbc, hib]
      · dsimp only
        rw [Function.update_of_ne hwv, hstored c' hk w hw]
    · have hwv : w ≠ v := fun h => by simp [h, hc] at hw
      dsimp only
      rw [Function.update_of_ne hwv]
      exact hw

theorem Rep.readOnly {p : TPath H h} {c : TNode h} (hr : Rep m t p c X) (hro : ReadOnly m t t')
    (hstack : t'.stack = t.stack) : Rep m t' p c X where
  inv := hro.inv
  stack := hstack.trans hr.stack
  path := hro.path hr.path fun v hv => (hr.owned.used v (by simp [hv])).1
  child := hro.held hr.child fun v hv => (hr.owned.used v (by simp [hv])).1
  owned := hr.owned.congr fun v hv => hro.used v (hr.owned.used v hv).1

/-- The children of a block that is there are there. -/
theorem held_plug {j : ℕ} {B : List (TNode h × KeyValue)} {d : TNode h} {A : List (KeyValue × TNode h)} :
    Held m t (Node.plug j B d A) ↔
      blockAt m t j = some (image blockSize (isLarge h) (flatBefore B) (num d) (flatAfter A)) ∧
        (∀ x ∈ B, Held m t x.1) ∧ Held m t d ∧ ∀ x ∈ A, Held m t x.2 := by
  unfold Held
  rw [Node.forall_plug, blockImage_chain]

section PushPop

variable {i j : ℕ} {before : List (TNode (h + 1) × KeyValue)} {after : List (KeyValue × TNode (h + 1))}
  {up : TPath H (h + 2)} {B : List (TNode h × KeyValue)} {d : TNode h} {A : List (KeyValue × TNode h)}

/-- The two places of a child's labels in the list of owned blocks. -/
theorem labels_push_perm : ((Path.down i before after up).spine ++ (Path.down i before after up).side ++
      (Node.plug j B d A).labels ++ X).Perm
    ((Path.down j B A (.down i before after up)).spine ++
      (Path.down j B A (.down i before after up)).side ++ d.labels ++ X) := by
  classical
  rw [Node.labels_plug]
  simp only [Path.spine, Path.side]
  refine List.perm_iff_count.mpr fun x => ?_
  simp only [List.count_append, List.count_cons]
  omega

/-- The cursor goes down to an entry of the child block. -/
theorem Rep.push (hr : Rep m t (.down i before after up) (Node.plug j B d A) X)
    (hib : ibIn t (.block j) =
      some (image blockSize (isLarge h) (flatBefore B) (num d) (flatAfter A)))
    (hco : CursorOnly t t') (hstack : t'.stack = frames (.down j B A (.down i before after up))) :
    Rep m t' (.down j B A (.down i before after up)) d X := by
  obtain ⟨-, hB, hd, hA⟩ := held_plug.mp hr.child
  have hheld : ∀ n : TNode h, Held m t n → Held m t' n := fun n hn => hn.congr (hco.sameOn _)
  refine ⟨hco.ct ▸ hr.inv, hstack, ⟨(hco.ibIn _).trans hib, fun x hx => hheld _ (hB x hx), fun x hx =>
    hheld _ (hA x hx), hr.path.congr (hco.sameOn _) hco.rootIb hco.rootVbn⟩, hheld _ hd, ?_⟩
  exact (hr.owned.perm labels_push_perm).congr fun v hv =>
    hco.ct ▸ ((hr.owned.perm labels_push_perm).used v hv).1

/-- The cursor goes up to the entry that points to the block on top. -/
theorem Rep.pop (hr : Rep m t (.down j B A (.down i before after up)) d X) (hco : CursorOnly t t')
    (hstack : t'.stack = frames (.down i before after up)) :
    Rep m t' (.down i before after up) (Node.plug j B d A) X := by
  obtain ⟨hib, hB, hA, hup⟩ := hr.path
  refine ⟨hco.ct ▸ hr.inv, hstack, hup.congr (hco.sameOn _) hco.rootIb hco.rootVbn, ?_, ?_⟩
  · exact (held_plug.mpr ⟨blockAt_of_ibIn m hib, hB, hr.child, hA⟩).congr (hco.sameOn _)
  · exact (hr.owned.perm labels_push_perm.symm).congr fun v hv =>
      hco.ct ▸ ((hr.owned.perm labels_push_perm.symm).used v hv).1

/-- A block and its child have different numbers. -/
theorem Rep.ne_child (hr : Rep m t (.down i before after up) (Node.plug j B d A) X) : i ≠ j := by
  intro hij
  have hnodup := hr.owned.nodup
  simp only [Path.spine, List.cons_append] at hnodup
  exact (List.nodup_cons.mp hnodup).1 (by simp [hij, Node.labels_plug])

/-- `push_cache_stack` goes to the first entry of the child block, or to its END
entry for the flags that look backwards. -/
theorem pushCacheStack_spec (hl : LawfulEnv env m fails) {flags : WalkFlags}
    (hr : Rep m t (.down i before after up) (Node.plug j B d A) X)
    (hdepth : up.spine.length + 2 ≤ treeMaxDepth)
    (hcut : if flags.getLast ∨ flags.getPrev then A = [] else B = []) :
    Ends (pushCacheStack env flags) t
      (fun _ t' => Rep m t' (.down j B A (.down i before after up)) d X ∧
        t'.maxDepth = if h = 0 then up.spine.length + 1 else t.maxDepth)
      (fun _ _ => False) := by
  have hlen : t.stack.length = up.spine.length + 1 := by
    rw [hr.stack, frames_length]
    rfl
  have hj : j ∈ m.used t.ct := (hr.owned.used j (by simp [Node.labels_plug])).1
  unfold pushCacheStack
  rw [ends_bind, ends_get]
  dsimp only
  rw [if_neg (by unfold depth treeMaxDepth at *; omega), ends_bind, ends_currentIe hr, curIe_vbn,
    num_plug]
  refine (indexBlockRead_spec hl hr.inv hr.stack rfl hr.path.2.2.2 hr.ne_child hj
    (held_plug.mp hr.child).1).seq' ?_ fun _ _ h => h
  intro ref t₁ hread
  obtain ⟨rfl, hib, hro, hstack₁, hmax₁⟩ := hread
  have hpos : (if flags.getLast = true ∨ flags.getPrev = true then
      lastPosition (image blockSize (isLarge h) (flatBefore B) (num d) (flatAfter A))
      else (image blockSize (isLarge h) (flatBefore B) (num d) (flatAfter A)).firstEntryOff) =
      cursorAt B := by
    by_cases hflag : flags.getLast = true ∨ flags.getPrev = true
    · rw [if_pos hflag] at hcut ⊢
      subst hcut
      exact lastPosition_image
    · rw [if_neg hflag] at hcut ⊢
      subst hcut
      rfl
  rw [ends_bind, ends_getIb hib, ends_modify, hpos]
  refine ⟨(hr.readOnly hro hstack₁).push hib ⟨rfl, rfl, rfl, rfl⟩ ?_, ?_⟩
  · rw [hstack₁, hr.stack]
    rfl
  · simp only [image_large, List.length_cons, hstack₁, hlen, hmax₁, Nat.add_sub_cancel]
    cases h with
    | zero => simp [isLarge]
    | succ h => simp [isLarge]

/-- `pop_cache_stack` without `INDEX_GET_PREV`. -/
theorem popCacheStack_spec {flags : WalkFlags} (hflags : flags.getPrev = false)
    (hr : Rep m t (.down j B A (.down i before after up)) d X)
    {Q : PrevResult → ObjectTree σ → Prop} {F : ErrorCode → ObjectTree σ → Prop}
    (hQ : ∀ t', Rep m t' (.down i before after up) (Node.plug j B d A) X → t'.maxDepth = t.maxDepth →
      CursorOnly t t' → Q .entry t') :
    Ends (popCacheStack flags : TreeM σ PrevResult) t Q F := by
  unfold popCacheStack
  rw [ends_bind, ends_get]
  have hstack := hr.stack
  rw [if_neg (by unfold depth; rw [hstack]; simp [frames]), ends_bind, ends_set, hflags,
    if_neg (by simp), ends_pure]
  exact hQ _ (hr.pop (setStack_cursorOnly _) (by rw [hstack]; rfl)) rfl (setStack_cursorOnly _)

end PushPop

/-! ## `get_current_ie` -/

/-- The first loop of `get_current_ie` goes down to a leaf: to its first entry on the
left edge of the child, or with the flags that look backwards to its END entry on
the right edge. In a leaf it stays where it is. -/
theorem descend_spec (hl : LawfulEnv env m fails) {flags : WalkFlags} (hH : H ≤ treeMaxDepth)
    {n : TNode h} {i : ℕ} {before : List (TNode h × KeyValue)} {after : List (KeyValue × TNode h)}
    {up : TPath H (h + 1)} (hr : Rep m t (.down i before after up) n X) {fuel : ℕ} (hfuel : h < fuel) :
    Ends (descend env flags fuel) t
      (fun _ t' => ∃ (j : ℕ) (B : List (TNode 0 × KeyValue)) (A : List (KeyValue × TNode 0))
        (q : TPath H 1), Rep m t' (.down j B A q) Node.nil X ∧
        Path.Below (.down i before after up) n (.down j B A q) Node.nil ∧
        (if flags.getLast ∨ flags.getPrev then
          (Path.down j B A q).right = (Path.down i before after up).right ∧
            (h ≠ 0 ∨ after = [] → A = [])
        else (Path.down j B A q).left = (Path.down i before after up).left ∧
            (h ≠ 0 ∨ before = [] → B = [])) ∧
        t'.maxDepth = if h = 0 then t.maxDepth else H - 1)
      (fun _ _ => False) := by
  induction h generalizing t i fuel with
  | zero =>
    obtain ⟨fuel, rfl⟩ : ∃ f, fuel = f + 1 := ⟨fuel - 1, by omega⟩
    unfold descend
    rw [ends_bind, ends_currentIe hr, if_neg (by simp [isLarge]), ends_pure]
    exact ⟨i, before, after, up, hr, .refl, by split_ifs <;> exact ⟨rfl, by simp⟩, rfl⟩
  | succ h ih =>
    obtain ⟨fuel, rfl⟩ : ∃ f, fuel = f + 1 := ⟨fuel - 1, by omega⟩
    have hlen := up.spine_length
    obtain ⟨j, B, d, A, rfl, hcut⟩ := n.exists_plug_edge (flags.getLast = true ∨ flags.getPrev = true)
    unfold descend
    rw [ends_bind, ends_currentIe hr, if_pos (by simp [isLarge])]
    refine (pushCacheStack_spec hl hr (by omega) hcut).seq fun _ t₁ hpush => ?_
    obtain ⟨hr₁, hmax₁⟩ := hpush
    refine (ih hr₁ (by omega)).mono (fun _ t' hpost => ?_) fun _ _ h => h
    obtain ⟨j', B', A', q, hr', hbelow, hside, hmax'⟩ := hpost
    refine ⟨j', B', A', q, hr', Path.Below.refl.push.trans hbelow, ?_, ?_⟩
    · by_cases hflag : flags.getLast = true ∨ flags.getPrev = true
      · rw [if_pos hflag] at hcut hside ⊢
        refine ⟨?_, fun _ => hside.2 (.inr hcut)⟩
        rw [hside.1, hcut]
        rfl
      · rw [if_neg hflag] at hcut hside ⊢
        refine ⟨?_, fun _ => hside.2 (.inr hcut)⟩
        rw [hside.1, hcut]
        simp [Path.left]
    · rw [if_neg (by omega), hmax']
      split_ifs with h0
      · rw [hmax₁, if_pos h0]
        omega
      · rfl

end IndexFs.Tree
