import IndexFs.Tree.Cursor

/-!
# Searching a tree

`HoldsTree m t n`: the state `t` of an object holds the tree `n`, wherever the cursor is.

Results, for a comparison that never decreases along the entries of the tree:

* `searchKeyInternal_spec`: the search ends on an entry that compares equal, or
  with `-INDEX_ERR_KEY_NOT_FOUND` at a leaf, between the smaller and the larger
  entries.
-/

namespace IndexFs.Tree

open IndexFs.Multiway IndexFs.Collate

variable {σ : Type} {m : ContainerModel σ} {t t' : ObjectTree σ} {H h : ℕ} {X : List ℕ}

/-! ## Trees at rest -/

/-- The state holds the tree `n`. -/
structure HoldsTree (m : ContainerModel σ) (t : ObjectTree σ) (n : TNode (H + 1)) : Prop where
  inv : m.Inv t.ct
  root : t.rootIb = blockImage H attrRecordContentSize n.root
  rootVbn : t.rootVbn = n.root.label
  first : Held m t n.root.first
  rest : ∀ x ∈ n.root.rest, Held m t x.2
  owned : Owned m t n.labels

/-- The blocks of a filled path. -/
theorem HoldsPath.fill {p : TPath (H + 1) h} {c : TNode h} (hp : HoldsPath m t p (num c))
    (hc : Held m t c) (hne : h ≠ H + 1) :
    t.rootIb = blockImage H attrRecordContentSize (p.fill c).root ∧
      t.rootVbn = (p.fill c).root.label ∧ Held m t (p.fill c).root.first ∧
      ∀ x ∈ (p.fill c).root.rest, Held m t x.2 := by
  induction p with
  | top => exact absurd rfl hne
  | @down h i before after up ih =>
    obtain ⟨hib, hbefore, hafter, hup⟩ := hp
    cases up with
    | top =>
      have hroot : (Path.down i before after .top).fill c = Node.plug i before c after := rfl
      rw [hroot]
      unfold Node.plug
      rw [Node.root_block, blockImage_chain]
      refine ⟨Option.some.inj hib, hup, ?_⟩
      exact (forall_chain (Held m t) before c after).mpr ⟨hbefore, hc, hafter⟩
    | down j b a up =>
      refine ih hup (held_plug.mpr ⟨blockAt_of_ibIn m hib, hbefore, hc, hafter⟩) ?_
      have := up.spine_length
      omega

theorem Rep.holdsTree {p : TPath (H + 1) h} {c : TNode h} (hr : Rep m t p c X) (hne : h ≠ H + 1) :
    HoldsTree m t (p.fill c) := by
  obtain ⟨hroot, hvbn, hfirst, hrest⟩ := hr.path.fill hr.child hne
  refine ⟨hr.inv, hroot, hvbn, hfirst, hrest, ?_⟩
  exact (hr.owned.sublist (List.sublist_append_left _ X)).perm (p.labels_fill c).symm

/-- `reset_cache_stack` puts the cursor on the first entry of the root. -/
theorem HoldsTree.reset {i : ℕ} {c : TNode H} {rest : List (KeyValue × TNode H)}
    (ht : HoldsTree m t (Node.block i c rest)) (hco : CursorOnly t t')
    (hstack : t'.stack = frames (.down i [] rest (.top : TPath (H + 1) (H + 1)))) :
    Rep m t' (.down i [] rest (.top : TPath (H + 1) (H + 1))) c [] := by
  have hheld : ∀ n : TNode H, Held m t n → Held m t' n := fun n hn => hn.congr (hco.sameOn _)
  refine ⟨hco.ct ▸ ht.inv, hstack, ⟨?_, by simp, fun x hx => hheld _ (ht.rest x hx), ?_⟩,
    hheld _ ht.first, ?_⟩
  · exact congrArg some (hco.rootIb.trans ht.root)
  · exact hco.rootVbn.trans ht.rootVbn
  · have hperm : (Node.block i c rest).labels.Perm
        ((Path.down i [] rest (.top : TPath (H + 1) (H + 1))).spine ++
          (Path.down i [] rest (.top : TPath (H + 1) (H + 1))).side ++ c.labels ++ []) := by
      classical
      rw [Node.labels_block]
      simp only [Path.spine, Path.side]
      refine List.perm_iff_count.mpr fun x => ?_
      simp only [List.count_append, List.count_cons, Node.labelsBefore_nil, List.count_nil]
      omega
    exact (ht.owned.perm hperm).congr fun v hv => hco.ct ▸ ((ht.owned.perm hperm).used v hv).1

theorem resetCacheStack_spec {flags : WalkFlags} (hflags : flags.getLast = false) {i : ℕ} {c : TNode H}
    {rest : List (KeyValue × TNode H)} (ht : HoldsTree m t (Node.block i c rest))
    {Q : Unit → ObjectTree σ → Prop} {F : ErrorCode → ObjectTree σ → Prop}
    (hQ : ∀ t', Rep m t' (.down i [] rest (.top : TPath (H + 1) (H + 1))) c [] →
      t'.maxDepth = t.maxDepth → Q () t') :
    Ends (resetCacheStack flags : TreeM σ Unit) t Q F := by
  unfold resetCacheStack
  rw [ends_modify, hflags]
  refine hQ _ (ht.reset (setStack_cursorOnly _) ?_) rfl
  rw [ht.root]
  rfl

/-! ## What a state holds -/

/-- The entries in the block `ib` and below it, in order, as far down as `fuel` goes. -/
def entriesBelow (m : ContainerModel σ) (t : ObjectTree σ) : (fuel : ℕ) → IndexBlock → List KeyValue
  | 0, _ => []
  | fuel + 1, ib => ib.entries.flatMap fun ie =>
    (if ie.isNode then ((blockAt m t ie.vbn).map (entriesBelow m t fuel)).getD [] else []) ++
      if ie.isEnd then [] else [(ie.key, ie.value)]

theorem flatMap_tailIes {large : Bool} {f : IndexEntry → List KeyValue} {p : TNode h → Prop}
    (hf : ∀ prev c, p c → (∀ kv, f (mkIe large prev (num c) kv) = c.elems ++ [kv]) ∧
      f (mkEnd large prev (num c)) = c.elems) (prev : ℕ) {c : TNode h} (hc : p c)
    {rest : List (KeyValue × TNode h)} (hrest : ∀ x ∈ rest, p x.2) :
    (headIe large prev (num c) (flatAfter rest) :: tailIes large (flatAfter rest)).flatMap f =
      c.elems ++ Node.elemsAfter rest := by
  induction rest generalizing prev c with
  | nil =>
    have hend := (hf prev c hc).2
    simpa [headIe, tailIes] using hend
  | cons x rest ih =>
    obtain ⟨hx, hrest⟩ := List.forall_mem_cons.mp hrest
    rw [flatAfter_cons, headIe_cons, tailIes_cons, List.flatMap_cons, ih _ hx hrest, (hf prev c hc).1,
      Node.elemsAfter_cons]
    simp

/-- The entries below a block that is there are those of the tree. -/
theorem entriesBelow_image {n : TNode (h + 1)} (hfirst : Held m t n.root.first)
    (hrest : ∀ x ∈ n.root.rest, Held m t x.2) (alloc : ℕ) {fuel : ℕ} (hfuel : h < fuel) :
    entriesBelow m t fuel (blockImage h alloc n.root) = n.elems := by
  induction h generalizing alloc fuel with
  | zero =>
    obtain ⟨fuel, rfl⟩ : ∃ f, fuel = f + 1 := ⟨fuel - 1, by omega⟩
    refine flatMap_tailIes (fun prev c hc => ⟨fun kv => ?_, ?_⟩) entrySize hfirst hrest
    · simp [mkIe, isLarge]
    · simp [mkEnd, endIe, isLarge]
  | succ h ih =>
    obtain ⟨fuel, rfl⟩ : ∃ f, fuel = f + 1 := ⟨fuel - 1, by omega⟩
    refine flatMap_tailIes (fun prev c hc => ?_) entrySize hfirst hrest
    have hblock : blockAt m t (num c) = some (blockImage h blockSize c.root) := hc.1
    have hbelow := ih hc.2.1 hc.2.2 blockSize (show h < fuel by omega)
    constructor
    · intro kv
      simp [mkIe, isLarge, hblock, hbelow]
    · simp [mkEnd, endIe, isLarge, hblock, hbelow]

/-- A state holds the entries of one tree only. -/
theorem HoldsTree.elems_unique {H' : ℕ} {n : TNode (H + 1)} {n' : TNode (H' + 1)} (hn : HoldsTree m t n)
    (hn' : HoldsTree m t n') : n.elems = n'.elems := by
  have h1 := entriesBelow_image hn.first hn.rest attrRecordContentSize (show H < H + H' + 1 by omega)
  have h2 := entriesBelow_image hn'.first hn'.rest attrRecordContentSize (show H' < H + H' + 1 by omega)
  rw [← h1, ← h2, ← hn.root, ← hn'.root]

/-! ## Comparisons along a tree -/

/-- Along the entries the comparison goes from smaller to equal to larger. -/
def Sorting (cmp : KeyValue → ℤ) (l : List KeyValue) : Prop :=
  l.Pairwise fun a b => (0 < cmp a → 0 < cmp b) ∧ (cmp b < 0 → cmp a < 0)

/-- What a stored entry compares to under the search for `key` and `value`. -/
def Compares (cr : CollateRule) (key value : Bytes) (cmp : KeyValue → ℤ) (l : List KeyValue) : Prop :=
  ∀ kv ∈ l, ∀ ie : IndexEntry, ie.key = kv.1 → ie.value = kv.2 →
    collateKey cr ie key value = .ok (cmp kv)

variable {cmp : KeyValue → ℤ}

/-- If the entries of a block before a child are smaller, so are those of the children there. -/
theorem Sorting.before {l : List (TNode h × KeyValue)} (hs : Sorting cmp (Node.elemsBefore l))
    (hl : ∀ x ∈ l, cmp x.2 < 0) : ∀ kv ∈ Node.elemsBefore l, cmp kv < 0 := by
  induction l with
  | nil => simp
  | cons x l ih =>
    have hsplit : Node.elemsBefore (x :: l) = x.1.elems ++ x.2 :: Node.elemsBefore l :=
      Node.elemsBefore_cons x l
    intro kv hkv
    unfold Sorting at hs
    rw [hsplit, List.pairwise_append, List.pairwise_cons] at hs
    rw [hsplit, List.mem_append, List.mem_cons] at hkv
    rcases hkv with hkv | rfl | hkv
    · exact (hs.2.2 kv hkv x.2 (by simp)).2 (hl x (by simp))
    · exact hl x (by simp)
    · exact ih hs.2.1.2 (fun y hy => hl y (by simp [hy])) kv hkv

/-- If the first of some sorted entries is larger, all are. -/
theorem Sorting.after {kv : KeyValue} {l : List KeyValue} (hs : Sorting cmp (kv :: l))
    (h : 0 < cmp kv) : ∀ kv' ∈ kv :: l, 0 < cmp kv' := by
  intro kv' hkv
  rcases List.mem_cons.mp hkv with rfl | hkv
  · exact h
  · exact ((List.pairwise_cons.mp hs).1 kv' hkv).1 h

variable {env : TreeEnv σ} {fails : Prop} {key value : Bytes}

/-! ## One block -/

/-- The inner loop stops at the first entry that is not smaller. -/
theorem searchBlock_spec {i : ℕ} {before : List (TNode h × KeyValue)} {c : TNode h}
    {after : List (KeyValue × TNode h)} {up : TPath H (h + 1)}
    (hr : Rep m t (.down i before after up) c X)
    (hcmp : Compares env.cr key value cmp (after.map Prod.fst)) {fuel : ℕ} (hfuel : after.length < fuel)
    {F : ErrorCode → ObjectTree σ → Prop} :
    Ends (searchBlock env key value fuel) t
      (fun found t' => ∃ D c' after', Rep m t' (.down i (before ++ D) after' up) c' X ∧
        chain (before ++ D) c' after' = chain before c after ∧ t'.maxDepth = t.maxDepth ∧
        (∀ x ∈ D, cmp x.2 < 0) ∧
        if found then ∃ kv d A, after' = (kv, d) :: A ∧ cmp kv = 0
        else ∀ kv d A, after' = (kv, d) :: A → 0 < cmp kv) F := by
  induction after generalizing t before c fuel with
  | nil =>
    obtain ⟨fuel, rfl⟩ : ∃ f, fuel = f + 1 := ⟨fuel - 1, by omega⟩
    unfold searchBlock
    rw [ends_bind, ends_currentIe hr, if_pos (by simp), ends_pure]
    exact ⟨[], c, [], by simpa using hr, by simp, rfl, by simp, by simp⟩
  | cons x after ih =>
    obtain ⟨kv, d⟩ := x
    obtain ⟨fuel, rfl⟩ : ∃ f, fuel = f + 1 := ⟨fuel - 1, by omega⟩
    have hkv := hcmp kv (by simp) (curIe before c ((kv, d) :: after)) rfl rfl
    unfold searchBlock
    rw [ends_bind, ends_currentIe hr, if_neg (by simp), hkv, ends_bind, ends_fromExcept_ok]
    by_cases hpos : cmp kv > 0
    · rw [if_pos hpos, ends_pure]
      refine ⟨[], c, (kv, d) :: after, by simpa using hr, by simp, rfl, by simp, ?_⟩
      rw [if_neg (by simp)]
      intro kv' d' A h
      simp only [List.cons.injEq, Prod.mk.injEq] at h
      rw [← h.1.1]
      exact hpos
    rw [if_neg hpos]
    by_cases hzero : cmp kv = 0
    · rw [if_pos hzero, ends_pure]
      exact ⟨[], c, (kv, d) :: after, by simpa using hr, by simp, rfl, by simp, kv, d, after, rfl, hzero⟩
    rw [if_neg hzero]
    refine (getNextIe_spec hr).seq fun _ t₁ hnext => ?_
    obtain ⟨hr₁, hmax₁, -⟩ := hnext
    refine (ih hr₁ (fun y hy => hcmp y (by simp [hy])) (by simpa using hfuel)).mono
      (fun found t' hpost => ?_) fun _ _ h => h
    obtain ⟨D, c', after', hr', hchain, hmax', hD, hfound⟩ := hpost
    refine ⟨(c, kv) :: D, c', after', by simpa using hr', ?_, hmax'.trans hmax₁, ?_, hfound⟩
    · rw [← chain_concat before c kv d after, ← hchain]
      simp
    · intro x hx
      rcases List.mem_cons.mp hx with rfl | hx
      · exact lt_of_le_of_ne (not_lt.mp hpos) hzero
      · exact hD x hx

/-! ## All levels -/

theorem tailIes_length (large : Bool) (after : List (KeyValue × ℕ)) :
    (tailIes large after).length = after.length := by
  induction after with
  | nil => rfl
  | cons x after ih => exact congrArg (· + 1) ih

theorem lt_image_entries {alloc : ℕ} {large : Bool} {before : List (ℕ × KeyValue)} {c : ℕ}
    (after : List (KeyValue × TNode h)) :
    after.length < (image alloc large before c (flatAfter after)).entries.length + 1 := by
  unfold image
  simp only [List.length_append, List.length_cons, tailIes_length, flatAfter, List.length_map]
  omega

/-- The outcome of a search for a key that is there: the cursor is on an entry that compares equal. -/
def FoundAt (m : ContainerModel σ) (cmp : KeyValue → ℤ) (n : TNode H) (X : List ℕ)
    (t : ObjectTree σ) : Prop :=
  ∃ (h i : ℕ) (B : List (TNode h × KeyValue)) (b : TNode h) (kv : KeyValue) (d : TNode h)
    (A : List (KeyValue × TNode h)) (q : TPath H (h + 1)),
    Rep m t (.down i B ((kv, d) :: A) q) b X ∧ (Path.down i B ((kv, d) :: A) q).fill b = n ∧ cmp kv = 0

/-- The outcome of a search that started with `maxDepth`, with the depth of the tree as the handle knows it
when the entry is in a leaf. -/
def FoundKnowing (m : ContainerModel σ) (cmp : KeyValue → ℤ) (n : TNode H) (X : List ℕ) (maxDepth : ℕ)
    (t : ObjectTree σ) : Prop :=
  ∃ (h i : ℕ) (B : List (TNode h × KeyValue)) (b : TNode h) (kv : KeyValue) (d : TNode h)
    (A : List (KeyValue × TNode h)) (q : TPath H (h + 1)),
    Rep m t (.down i B ((kv, d) :: A) q) b X ∧ (Path.down i B ((kv, d) :: A) q).fill b = n ∧ cmp kv = 0 ∧
    (h = 0 → t.maxDepth = if H = 1 then maxDepth else H - 1)

theorem FoundKnowing.foundAt {n : TNode H} {maxDepth : ℕ} (hf : FoundKnowing m cmp n X maxDepth t) :
    FoundAt m cmp n X t := by
  obtain ⟨h, i, B, b, kv, d, A, q, hr, hfill, hcmp, -⟩ := hf
  exact ⟨h, i, B, b, kv, d, A, q, hr, hfill, hcmp⟩

/-- The outcome of a search for a key that is not there: the cursor is in a leaf between the
smaller and the larger entries. -/
def MissedAt (m : ContainerModel σ) (cmp : KeyValue → ℤ) (n : TNode H) (X : List ℕ) (maxDepth : ℕ)
    (t : ObjectTree σ) : Prop :=
  ∃ (i : ℕ) (B : List (TNode 0 × KeyValue)) (A : List (KeyValue × TNode 0)) (q : TPath H 1),
    Rep m t (.down i B A q) Node.nil X ∧ (Path.down i B A q).fill Node.nil = n ∧
    (∀ kv ∈ (Path.down i B A q).left, cmp kv < 0) ∧ (∀ kv ∈ (Path.down i B A q).right, 0 < cmp kv) ∧
    t.maxDepth = if H = 1 then maxDepth else H - 1

section Levels

variable {i : ℕ} {rest : List (KeyValue × TNode h)} {up : TPath H (h + 1)} {c : TNode h} {n : TNode H}

/-- Searching a block splits the entries of the whole tree. -/
theorem searchBlock_tree (hr : Rep m t (.down i [] rest up) c X)
    (hn : (Path.down i [] rest up).fill c = n) (hcmp : Compares env.cr key value cmp n.elems)
    (hsort : Sorting cmp n.elems) (hleft : ∀ kv ∈ up.left, cmp kv < 0)
    (hright : ∀ kv ∈ up.right, 0 < cmp kv) {maxDepth : ℕ}
    (hdepth : h = 0 → t.maxDepth = if H = 1 then maxDepth else H - 1) {fuel : ℕ} (hfuel : rest.length < fuel)
    {F : ErrorCode → ObjectTree σ → Prop} :
    Ends (searchBlock env key value fuel) t
      (fun found t' => if found then FoundKnowing m cmp n X maxDepth t' else
        ∃ D c' after', Rep m t' (.down i D after' up) c' X ∧ (Path.down i D after' up).fill c' = n ∧
          (∀ kv ∈ (Path.down i D after' up).left, cmp kv < 0) ∧
          (∀ kv ∈ (Path.down i D after' up).right, 0 < cmp kv) ∧ t'.maxDepth = t.maxDepth) F := by
  have hrest : Compares env.cr key value cmp (rest.map Prod.fst) := by
    intro kv hkv
    obtain ⟨x, hx, rfl⟩ := List.mem_map.mp hkv
    refine hcmp x.1 ?_
    rw [← hn, Path.elems_fill]
    have hmem : x.1 ∈ Node.elemsAfter rest := List.mem_flatMap.mpr ⟨x, hx, by simp⟩
    simp [Path.right, hmem]
  refine (searchBlock_spec hr hrest hfuel).mono (fun found t' hpost => ?_) fun _ _ h => h
  obtain ⟨D, c', after', hr', hchain, hmax, hD, hfound⟩ := hpost
  rw [List.nil_append] at hr' hchain
  have hfill : (Path.down i D after' up).fill c' = n := (fill_recut hchain).trans hn
  have helems : n.elems = up.left ++ Node.elemsBefore D ++ c'.elems ++ (Node.elemsAfter after' ++ up.right) := by
    rw [← hfill, Path.elems_fill]
    simp only [Path.left, Path.right]
  cases found with
  | true =>
    rw [if_pos rfl] at hfound ⊢
    obtain ⟨kv, d, A, rfl, hzero⟩ := hfound
    exact ⟨h, i, D, c', kv, d, A, up, hr', hfill, hzero, fun h0 => hmax.trans (hdepth h0)⟩
  | false =>
    rw [if_neg (by simp)] at hfound ⊢
    refine ⟨D, c', after', hr', hfill, fun kv hkv => ?_, fun kv hkv => ?_, hmax⟩
    · rcases List.mem_append.mp hkv with hkv | hkv
      · exact hleft kv hkv
      · have hsub : (Node.elemsBefore D).Sublist n.elems := by
          rw [helems, List.append_assoc, List.append_assoc]
          exact (List.sublist_append_left _ _).trans (List.sublist_append_right _ _)
        exact Sorting.before (List.Pairwise.sublist hsub hsort) hD kv hkv
    · rcases List.mem_append.mp hkv with hkv | hkv
      · cases after' with
        | nil => simp at hkv
        | cons x A =>
          have hsub : (Node.elemsAfter (x :: A)).Sublist n.elems := by
            rw [helems]
            exact (List.sublist_append_left _ _).trans (List.sublist_append_right _ _)
          rw [Node.elemsAfter_cons] at hkv hsub
          exact Sorting.after (List.Pairwise.sublist hsub hsort) (hfound x.1 x.2 A rfl) kv hkv
      · exact hright kv hkv

theorem searchLevels_spec (hl : LawfulEnv env m fails) (hH : H ≤ treeMaxDepth) {maxDepth : ℕ}
    (hr : Rep m t (.down i [] rest up) c X) (hn : (Path.down i [] rest up).fill c = n)
    (hcmp : Compares env.cr key value cmp n.elems) (hsort : Sorting cmp n.elems)
    (hleft : ∀ kv ∈ up.left, cmp kv < 0) (hright : ∀ kv ∈ up.right, 0 < cmp kv)
    (hmax : h = 0 → t.maxDepth = if H = 1 then maxDepth else H - 1)
    {fuel : ℕ} (hfuel : h < fuel) :
    Ends (searchLevels env key value fuel) t (fun _ t' => FoundKnowing m cmp n X maxDepth t')
      (fun e t' => e = .keyNotFound ∧ MissedAt m cmp n X maxDepth t') := by
  induction h generalizing t i fuel with
  | zero =>
    obtain ⟨fuel, rfl⟩ : ∃ f, fuel = f + 1 := ⟨fuel - 1, by omega⟩
    unfold searchLevels
    rw [ends_bind, ends_top hr.stack, ends_bind, ends_getIb hr.topIb]
    refine (searchBlock_tree hr hn hcmp hsort hleft hright hmax
      (lt_image_entries rest)).seq fun found t₁ hpost => ?_
    cases found with
    | true =>
      rw [if_pos rfl] at hpost ⊢
      exact hpost
    | false =>
      rw [if_neg (by simp)] at hpost ⊢
      obtain ⟨D, c', after', hr', hfill, hleft', hright', hmax'⟩ := hpost
      rw [ends_bind, ends_currentIe hr', if_pos (by simp [isLarge]), ends_throw]
      exact ⟨rfl, i, D, after', up, hr', hfill, hleft', hright', hmax'.trans (hmax rfl)⟩
  | succ h ih =>
    obtain ⟨fuel, rfl⟩ : ∃ f, fuel = f + 1 := ⟨fuel - 1, by omega⟩
    have hlen := up.spine_length
    unfold searchLevels
    rw [ends_bind, ends_top hr.stack, ends_bind, ends_getIb hr.topIb]
    refine (searchBlock_tree hr hn hcmp hsort hleft hright hmax
      (lt_image_entries rest)).seq fun found t₁ hpost => ?_
    cases found with
    | true =>
      rw [if_pos rfl] at hpost ⊢
      exact hpost
    | false =>
      rw [if_neg (by simp)] at hpost ⊢
      obtain ⟨D, c', after', hr', hfill, hleft', hright', hmax'⟩ := hpost
      rw [ends_bind, ends_currentIe hr', if_neg (by simp [isLarge])]
      obtain ⟨j, d, A, rfl⟩ := c'.exists_block
      have hplug : Node.block j d A = Node.plug j [] d A := rfl
      rw [hplug] at hr' hfill
      refine (pushCacheStack_spec hl hr' (by omega) (by simp)).seq' (fun _ t₂ hpush => ?_)
        fun _ _ h => h.elim
      obtain ⟨hr₂, hmax₂⟩ := hpush
      refine ih hr₂ hfill hleft' hright' (fun h0 => ?_) (by omega)
      rw [hmax₂, if_pos h0, if_neg (by omega)]
      omega

end Levels

/-- `search_key_internal`. -/
theorem searchKeyInternal_knowing (hl : LawfulEnv env m fails) {n : TNode (H + 1)} (hH : H + 1 ≤ treeMaxDepth)
    (ht : HoldsTree m t n) (hkey : key ≠ []) (hcmp : Compares env.cr key value cmp n.elems)
    (hsort : Sorting cmp n.elems) :
    Ends (searchKeyInternal env key value) t (fun _ t' => FoundKnowing m cmp n [] t.maxDepth t')
      (fun e t' => e = .keyNotFound ∧ MissedAt m cmp n [] t.maxDepth t') := by
  obtain ⟨i, c, rest, rfl⟩ := n.exists_block
  unfold searchKeyInternal
  rw [ends_bind, ends_assertThat]
  refine ⟨fun _ => ?_, fun h => absurd hkey h⟩
  refine Ends.bind (resetCacheStack_spec rfl ht fun t₁ hr hmax => ?_)
  refine searchLevels_spec hl hH hr rfl hcmp hsort (by simp [Path.left]) (by simp [Path.right])
    (fun h0 => ?_) (by omega)
  rw [hmax, if_pos (by omega)]

theorem searchKeyInternal_spec (hl : LawfulEnv env m fails) {n : TNode (H + 1)} (hH : H + 1 ≤ treeMaxDepth)
    (ht : HoldsTree m t n) (hkey : key ≠ []) (hcmp : Compares env.cr key value cmp n.elems)
    (hsort : Sorting cmp n.elems) :
    Ends (searchKeyInternal env key value) t (fun _ t' => FoundAt m cmp n [] t')
      (fun e t' => e = .keyNotFound ∧ MissedAt m cmp n [] t.maxDepth t') :=
  (searchKeyInternal_knowing hl hH ht hkey hcmp hsort).mono (fun _ _ h => h.foundAt) fun _ _ h => h

end IndexFs.Tree
