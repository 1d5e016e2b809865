import IndexFs.Tree.InsertKey
import IndexFs.Tree.Walk

/-!
# `remove_leaf`

An entry leaves a leaf. If the leaf is empty then, it is freed together with every
block above that has no other child, and the entry that is left without a child
moves into the leaf beside it: a separator before the hole to the end of the leaf
on its left, one behind the hole to the front of the leaf on its right.

* `AtCursor`: the cursor in a well-formed tree with given entries.
* `freeEmptyIbs_spec`: what is left when the empty blocks are gone, `Hole`.
* `moveToLeaf_spec`: the separator moves into a leaf.
* `removeLeaf_spec`: the entries afterwards are the others, in order.
-/

namespace IndexFs.Tree

open IndexFs.Multiway

variable {σ : Type} {m : ContainerModel σ} {t t' : ObjectTree σ} {H h : ℕ} {X : List ℕ} {env : TreeEnv σ}
  {fails : Prop}

/-! ## Positions -/

/-- The cursor is in a well-formed tree of `H` levels with the entries `l`, of which `k` lie before it. -/
def AtCursor (m : ContainerModel σ) (t : ObjectTree σ) (X : List ℕ) (H k : ℕ) (l : List KeyValue) : Prop :=
  ∃ (h i : ℕ) (before : List (TNode h × KeyValue)) (c : TNode h) (after : List (KeyValue × TNode h))
    (up : TPath H (h + 1)), Rep m t (.down i before after up) c X ∧ PathOk (.down i before after up) ∧
    NodeOk c ∧ (h = 0 → H ≠ 1 → before ≠ [] ∨ after ≠ []) ∧
    (Path.down i before after up).left ++ c.elems ++ (Path.down i before after up).right = l ∧
    (Path.down i before after up).left.length + c.elems.length = k

theorem OnEntry.atCursor {k : ℕ} {l : List KeyValue} (ho : OnEntry m t X H h k l) : AtCursor m t X H k l := by
  obtain ⟨h', i, B, b, kv, b', A, q, hr, hp, hb, hl, hk, -⟩ := ho
  exact ⟨h', i, B, b, (kv, b') :: A, q, hr, hp, hb, fun _ _ => .inr (by simp), hl, hk⟩

theorem AtCursor.holdsTree {k : ℕ} {l : List KeyValue} (hc : AtCursor m t X (H + 1) k l) :
    ∃ n : TNode (H + 1), HoldsTree m t n ∧ TreeOk n ∧ n.elems = l := by
  obtain ⟨h, i, before, c, after, up, hr, hp, hcok, hne, hl, -⟩ := hc
  have hlen := up.spine_length
  refine ⟨_, hr.holdsTree (by omega), treeOk_fill hp hcok (by omega) fun h0 hH => ?_, ?_⟩
  · exact hne h0 (by omega)
  · rw [Path.elems_fill, hl]

theorem Below.height_le {h' : ℕ} {p : TPath H h} {n : TNode h} {q : TPath H h'} {d : TNode h'}
    (hb : Path.Below p n q d) : h' ≤ h := by
  induction hb with
  | refl => exact le_rfl
  | push _ ih => omega

/-- The blocks on the way down from a child are well-formed. -/
theorem Below.ok {h' : ℕ} {p : TPath H h} {n : TNode h} {q : TPath H h'} {d : TNode h'}
    (hb : Path.Below p n q d) (hh : h < H) (hp : PathOk p) (hn : NodeOk n) : PathOk q ∧ NodeOk d := by
  induction hb with
  | refl => exact ⟨hp, hn⟩
  | @push h' q j B d A hb ih =>
    obtain ⟨hq, hplug⟩ := ih
    obtain ⟨⟨hblock, -⟩, hbefore, hd, hafter⟩ := nodeOk_plug.mp hplug
    have hle := Below.height_le hb
    have halloc : allocOf q = blockSize := by
      cases q with
      | top => omega
      | down => rfl
    exact ⟨⟨halloc ▸ hblock, hbefore, hafter, hq⟩, hd⟩

/-- A leaf on the way down from a child has an entry. -/
theorem Below.leaf_ne {p : TPath H h} {n : TNode h} {j : ℕ} {B : List (TNode 0 × KeyValue)} {d : TNode 0}
    {A : List (KeyValue × TNode 0)} {q : TPath H 1} (hb : Path.Below p n (.down j B A q) d) (hh : h < H)
    (hp : PathOk p) (hn : NodeOk n) (h0 : h ≠ 0) : B ≠ [] ∨ A ≠ [] := by
  cases hb with
  | refl => exact absurd rfl h0
  | push hb => exact (nodeOk_plug.mp (Below.ok hb hh hp hn).2).1.2 rfl

/-- The way down does not leave the root block. -/
theorem Below.rootEntries {h' : ℕ} {i : ℕ} {before : List (TNode h × KeyValue)}
    {after : List (KeyValue × TNode h)} {up : TPath H (h + 1)} {n : TNode h} {q : TPath H h'} {d : TNode h'}
    (hb : Path.Below (.down i before after up) n q d) (kvs : List KeyValue) :
    Tree.rootEntries q kvs = Tree.rootEntries up (before.map Prod.snd ++ after.map Prod.fst) := by
  induction hb generalizing kvs with
  | refl => rfl
  | push _ ih => exact ih _

/-- The root has an entry if it has one with fewer entries in some block. -/
theorem rootEntries_ne_nil {up : TPath H h} {kvs kvs' : List KeyValue} (hr : rootEntries up kvs ≠ [])
    (hk : kvs ≠ [] → kvs' ≠ []) : rootEntries up kvs' ≠ [] := by
  cases up with
  | top => exact hk hr
  | down => exact hr

/-! ## Rewriting the block on top -/

section Rewrite

variable {i pos : ℕ} {ib : IndexBlock} {L : List ℕ}

/-- The block on top gets new content, and `set_ib_dirty` is called. -/
theorem Top.rewrite (hl : LawfulEnv env m fails) {up : TPath H (h + 1)} (ht : Top m t up i pos ib L)
    (ib' : IndexBlock) :
    Ends (setIbDirty env) (Tree.putIb t (refOf up i) ib')
      (fun _ t' => ∃ j l, l.length = up.spine.length ∧ Top m t' (up.relabel l) j pos ib' L ∧
        SameOn m t t' L ∧ t'.maxDepth = t.maxDepth)
      (fun _ _ => fails) := by
  obtain ⟨ht', hs'⟩ := ht.putIb ib'
  refine (ht'.dirty hl).mono (fun _ t₂ hpost => ?_) fun _ _ h => h
  obtain ⟨j, l, hlen, ht₂, hs₂, hmax⟩ := hpost
  exact ⟨j, l, hlen, ht₂, hs'.trans hs₂, hmax.trans (putIb_onlyAt _ _).maxDepth⟩

/-- The block on top is freed, and the cursor goes up. -/
theorem Top.free (hl : LawfulEnv env m fails) {j : ℕ} {before : List (TNode h × KeyValue)}
    {after : List (KeyValue × TNode h)} {up : TPath H (h + 1)}
    (ht : Top m t (.down j before after up) i pos ib L) :
    Ends (onCt (env.freeBlock i)) t
      (fun _ t₁ => ∀ t', t' = { t₁ with
          caches := Function.update t₁.caches i none, stack := frames (.down j before after up) } →
        Top m t' up j (cursorAt before)
          (image (allocOf up) (isLarge h) (flatBefore before) i (flatAfter after))
          (Node.labelsBefore before ++ Node.labelsAfter after ++ L) ∧
        SameOn m t t' (Node.labelsBefore before ++ Node.labelsAfter after ++ L) ∧
        t'.maxDepth = t.maxDepth ∧ t₁.stack = t.stack)
      (fun _ _ => fails) := by
  have hi := ht.owned.used i (by simp)
  rw [ends_onCt]
  refine (hl.free t.ct i ht.inv hi.1).mono (fun _ c hk => ?_) fun _ _ h => h.1
  rintro t' rfl
  have hpath := ht.path
  have hnodup := List.nodup_cons.mp ht.owned.nodup
  have hin : ∀ v ∈ (Path.down j before after up).spine ++ (Path.down j before after up).side ++ L,
      v ≠ i ∧ v ∈ m.used t.ct \ {i} := by
    intro v hv
    have hvi : v ≠ i := fun h => hnodup.1 (h ▸ hv)
    exact ⟨hvi, (ht.owned.used v (List.mem_cons_of_mem i hv)).1, hvi⟩
  have hsame : ∀ v ∈ (Path.down j before after up).spine ++ (Path.down j before after up).side ++ L,
      Function.update t.caches i none v = t.caches v ∧ m.stored c v = m.stored t.ct v :=
    fun v hv => ⟨Function.update_of_ne (hin v hv).1 _ _, (hk.2 v (hin v hv).2).2⟩
  have hown : Owned m ({ t with ct := c } : ObjectTree σ)
      ((Path.down j before after up).spine ++ (Path.down j before after up).side ++ L) :=
    ⟨hnodup.2, fun v hv => ⟨(hk.2 v (hin v hv).2).1, (ht.owned.used v (List.mem_cons_of_mem i hv)).2⟩⟩
  simp only [Path.spine, Path.side] at hsame hown
  refine ⟨⟨hk.1, rfl, ?_, ?_, (hown.perm ?_).congr fun v hv => (hown.used v ?_).1⟩,
    fun v hv => hsame v ?_, rfl, rfl⟩
  · rw [← hpath.1]
    cases up with
    | top => rfl
    | down j' b a up =>
      change ibIn _ (.block j) = ibIn t (.block j)
      rw [ibIn_block, ibIn_block]
      exact congrArg (fun x => Option.bind x BlockCache.ib) (hsame j (by simp)).1
  · refine hpath.2.2.2.congr (fun v hv => hsame v ?_) rfl rfl
    simp only [List.mem_append, List.mem_cons] at hv ⊢
    tauto
  · classical
    refine List.perm_iff_count.mpr fun x => ?_
    simp only [List.count_append, List.count_cons]
    omega
  · simp only [List.mem_append, List.mem_cons] at hv ⊢
    tauto
  · simp only [List.mem_append, List.mem_cons] at hv ⊢
    tauto

end Rewrite

/-! ## `check_removed_ib` -/

/-- Blocks below the entry under the cursor were freed, and it has no child now. The entries of the tree
are `l` before and `r` from there on; the root block has the entries `R`. -/
def Hole (m : ContainerModel σ) (t : ObjectTree σ) (X : List ℕ) (H : ℕ) (l r R : List KeyValue) : Prop :=
  ∃ (h j v : ℕ) (B : List (TNode (h + 1) × KeyValue)) (A : List (KeyValue × TNode (h + 1)))
    (up : TPath H (h + 2)),
    Top m t up j (cursorAt B) (image (allocOf up) true (flatBefore B) v (flatAfter A))
      (Node.labelsBefore B ++ Node.labelsAfter A ++ X) ∧
    (∀ x ∈ B, Held m t x.1) ∧ (∀ x ∈ A, Held m t x.2) ∧ PathOk (.down j B A up) ∧ (B ≠ [] ∨ A ≠ []) ∧
    (Path.down j B A up).left = l ∧ (Path.down j B A up).right = r ∧
    rootEntries up (B.map Prod.snd ++ A.map Prod.fst) = R

/-- The root is a leaf without entries. -/
def EmptyRoot (m : ContainerModel σ) (t : ObjectTree σ) (X : List ℕ) : Prop :=
  ∃ j, Rep m t (.down j [] [] (.top : TPath 1 1)) Node.nil X

/-- The loop of `check_removed_ib`, from the block `i` on. -/
theorem freeEmptyIbs_spec (hl : LawfulEnv env m fails) {i j pos : ℕ} {ib : IndexBlock}
    {B : List (TNode (h + 1) × KeyValue)} {A : List (KeyValue × TNode (h + 1))} {up : TPath H (h + 2)}
    (ht : Top m t (.down j B A up) i pos ib X) (hp : PathOk (.down j B A up)) {fuel : ℕ}
    (hfuel : up.spine.length < fuel) :
    Ends (freeEmptyIbs env fuel) t
      (fun r t' => t'.maxDepth = t.maxDepth ∧
        if r then Hole m t' X H (Path.down j B A up).left (Path.down j B A up).right
          (rootEntries up (B.map Prod.snd ++ A.map Prod.fst))
        else (Path.down j B A up).left = [] ∧ (Path.down j B A up).right = [] ∧ EmptyRoot m t' X)
      (fun _ _ => fails) := by
  induction fuel generalizing t h i j pos ib with
  | zero => omega
  | succ fuel ih =>
    have hpath := ht.path
    unfold freeEmptyIbs
    rw [ends_bind, ends_top ht.stack, ends_bind, ends_cacheVbn ht.path]
    refine (ht.free hl).seq fun _ t₁ hfree => ?_
    have hnext := hfree _ rfl
    have hstack : ({ t₁ with caches := Function.update t₁.caches i none } : ObjectTree σ).stack =
        ⟨refOf (.down j B A up) i, pos⟩ :: ⟨refOf up j, cursorAt B⟩ :: frames up :=
      hnext.2.2.2.trans ht.stack
    unfold freeObjCache
    rw [ends_bind, ends_modify, ends_bind, ends_popCacheStack hstack]
    obtain ⟨ht₂, hs₂, hmax₂, -⟩ := hnext
    change Ends _ { t₁ with
      caches := Function.update t₁.caches i none, stack := frames (.down j B A up) } _ _
    set t₂ : ObjectTree σ :=
      { t₁ with caches := Function.update t₁.caches i none, stack := frames (.down j B A up) }
    have hheld : (∀ x ∈ B, Held m t₂ x.1) ∧ ∀ x ∈ A, Held m t₂ x.2 := by
      refine ⟨fun x hx => (hpath.2.1 x hx).congr (hs₂.mono fun v hv => ?_), fun x hx =>
        (hpath.2.2.1 x hx).congr (hs₂.mono fun v hv => ?_)⟩
      · have := mem_labelsBefore hx hv
        simp [this]
      · have := mem_labelsAfter hx hv
        simp [this]
    obtain ⟨ie, hie, hend⟩ := firstIe_image (allocOf up) (isLarge (h + 1)) (flatBefore B) i (flatAfter A)
    rw [ends_bind, ends_top ht₂.stack, ends_bind, ends_getIb ht₂.ib, hie, ends_bind, ends_fromExcept_ok]
    by_cases hempty : B = [] ∧ A = []
    · obtain ⟨rfl, rfl⟩ := hempty
      rw [if_neg (by simp [hend]), ends_bind, ends_get]
      cases up with
      | top =>
        have hdepth : depth t₂ = 0 := rfl
        rw [if_pos hdepth, ends_bind, ends_setIb, ends_bind]
        refine (ht₂.rewrite hl (image attrRecordContentSize false [] 0 [])).mono (fun _ t₃ hpost => ?_)
          fun _ _ h => h
        obtain ⟨j', l, -, ht₃, -, hmax₃⟩ := hpost
        rw [Path.relabel_top] at ht₃
        rw [ends_pure, if_neg (by simp)]
        have hroot : Top m t₃ (.top : TPath 1 1) j' (cursorAt ([] : List (TNode 0 × KeyValue)))
            (image attrRecordContentSize false [] 0 []) X := by
          refine ⟨ht₃.inv, ht₃.stack, ht₃.ib, ht₃.path, ?_⟩
          simpa [Path.spine, Path.side] using ht₃.owned
        exact ⟨hmax₃.trans hmax₂, rfl, rfl, j', hroot.toRep (by simp) trivial (by simp) (by simp)⟩
      | down j' B' A' up =>
        have hdepth : depth t₂ ≠ 0 := Nat.succ_ne_zero _
        rw [if_neg hdepth]
        simp only [Path.spine, List.length_cons] at hfuel
        refine (ih ht₂ hp.2.2.2 (by omega)).mono (fun r t' hpost => ?_) fun _ _ h => h
        exact ⟨hpost.1.trans hmax₂, by simpa [Path.left, Path.right] using hpost.2⟩
    · have hne : B ≠ [] ∨ A ≠ [] := by tauto
      have hie' : ie.isEnd = false := by
        rw [hend]
        cases B with
        | nil => cases A with
          | nil => simp at hne
          | cons x A => rfl
        | cons x B => rfl
      rw [if_pos (by simp [hie']), ends_pure, if_pos rfl]
      exact ⟨hmax₂, h, j, i, B, A, up, ht₂, hheld.1, hheld.2, hp, hne, rfl, rfl, rfl⟩

/-! ## Into a leaf -/

section Leaf

variable {i : ℕ} {before : List (TNode h × KeyValue)} {c : TNode h} {after : List (KeyValue × TNode h)}
  {up : TPath H (h + 1)}

/-- The cursor is in a leaf below the child `c` of the path `p`, between the entries `l` and `r`. -/
def InLeaf (m : ContainerModel σ) (t : ObjectTree σ) (X : List ℕ) (p : TPath H h) (c : TNode h)
    (l r : List KeyValue) : Prop :=
  ∃ (j : ℕ) (B : List (TNode 0 × KeyValue)) (A : List (KeyValue × TNode 0)) (q : TPath H 1),
    Rep m t (.down j B A q) Node.nil X ∧ Path.Below p c (.down j B A q) Node.nil ∧ PathOk (.down j B A q) ∧
    (B ≠ [] ∨ A ≠ []) ∧ (Path.down j B A q).left = l ∧ (Path.down j B A q).right = r

/-- The cursor is on the first entry below the child `c` of the path `p`, between `l` and `r`. -/
def OnFirst (m : ContainerModel σ) (t : ObjectTree σ) (X : List ℕ) (p : TPath H h) (c : TNode h)
    (l r : List KeyValue) : Prop :=
  ∃ (j : ℕ) (kv : KeyValue) (d : TNode 0) (A : List (KeyValue × TNode 0)) (q : TPath H 1),
    Rep m t (.down j [] ((kv, d) :: A) q) Node.nil X ∧ Path.Below p c (.down j [] ((kv, d) :: A) q) Node.nil ∧
    PathOk (.down j [] ((kv, d) :: A) q) ∧ (Path.down j [] ((kv, d) :: A) q).left = l ∧
    (Path.down j [] ((kv, d) :: A) q).right = r

theorem OnFirst.inLeaf {p : TPath H h} {l r : List KeyValue} (ho : OnFirst m t X p c l r) :
    InLeaf m t X p c l r := by
  obtain ⟨j, kv, d, A, q, hr, hbelow, hp, hl, hr'⟩ := ho
  exact ⟨j, [], (kv, d) :: A, q, hr, hbelow, hp, .inr (by simp), hl, hr'⟩

/-- `get_current_ie` without a flag that looks backwards: to the first entry below a child. -/
theorem getCurrentIe_front (hl : LawfulEnv env m fails) (hH : H ≤ treeMaxDepth) {flags : WalkFlags}
    (hlast : flags.getLast = false) (hprev : flags.getPrev = false)
    (hr : Rep m t (.down i before after up) c X) (hp : PathOk (.down i before after up)) (hc : NodeOk c)
    (h0 : h ≠ 0) :
    Ends (getCurrentIe env flags) t
      (fun _ t' => t'.maxDepth = H - 1 ∧ OnFirst m t' X (.down i before after up) c
        (Path.down i before after up).left (c.elems ++ (Path.down i before after up).right))
      (fun _ _ => False) := by
  have hlen := up.spine_length
  unfold getCurrentIe
  refine (descend_spec hl hH hr (by omega)).seq fun _ t₁ hpost => ?_
  obtain ⟨j, B, A, q, hr₁, hbelow, hside, hmax⟩ := hpost
  rw [if_neg (by simp [hlast, hprev])] at hside
  rw [if_neg h0] at hmax
  obtain rfl : B = [] := hside.2 (.inl h0)
  cases A with
  | nil => simpa using Below.leaf_ne hbelow (by omega) hp hc h0
  | cons x A =>
    obtain ⟨kv, d⟩ := x
    unfold ascend
    rw [ends_bind, ends_currentIe hr₁, if_neg (by simp), ends_pure]
    refine ⟨hmax, j, kv, d, A, q, hr₁, hbelow, (Below.ok hbelow (by omega) hp hc).1, hside.1, ?_⟩
    have helems := congrArg Node.elems hbelow.fill_eq
    rw [Path.elems_fill, Path.elems_fill, hside.1, Node.elems_zero, List.append_nil, List.append_assoc] at helems
    exact List.append_cancel_left helems

/-- `get_current_ie` with `INDEX_GET_LAST | INDEX_GET_LAST_ENTRY`: behind the last entry below a child. -/
theorem getCurrentIe_back (hl : LawfulEnv env m fails) (hH : H ≤ treeMaxDepth)
    (hr : Rep m t (.down i before after up) c X) (hp : PathOk (.down i before after up)) (hc : NodeOk c)
    (h0 : h ≠ 0) :
    Ends (getCurrentIe env { getLast := true, getLastEntry := true }) t
      (fun _ t' => t'.maxDepth = H - 1 ∧ InLeaf m t' X (.down i before after up) c
        ((Path.down i before after up).left ++ c.elems) (Path.down i before after up).right)
      (fun _ _ => False) := by
  have hlen := up.spine_length
  unfold getCurrentIe
  refine (descend_spec hl hH hr (by omega)).seq fun _ t₁ hpost => ?_
  obtain ⟨j, B, A, q, hr₁, hbelow, hside, hmax⟩ := hpost
  rw [if_pos (by simp)] at hside
  rw [if_neg h0] at hmax
  obtain rfl : A = [] := hside.2 (.inl h0)
  unfold ascend
  rw [ends_bind, ends_currentIe hr₁, if_pos (by simp)]
  unfold addOrRemoveIb
  rw [if_neg (by simp), ends_bind, ends_pure, if_pos (by simp), if_pos rfl, ends_pure]
  refine ⟨hmax, j, B, [], q, hr₁, hbelow, (Below.ok hbelow (by omega) hp hc).1,
    Below.leaf_ne hbelow (by omega) hp hc h0, ?_, hside.1⟩
  have helems := congrArg Node.elems hbelow.fill_eq
  rw [Path.elems_fill, Path.elems_fill, hside.1, Node.elems_zero, List.append_nil] at helems
  exact List.append_cancel_right helems

/-- An entry goes into the leaf under the cursor. -/
theorem treeInsertIe_leaf (hl : LawfulEnv env m fails) (hH : H ≤ treeMaxDepth) {l r : List KeyValue}
    (hleaf : InLeaf m t X (.down i before after up) c l r) (hmax : t.maxDepth = H - 1) {kv : KeyValue}
    (hkv : KeyValueOk kv) (prev : ℕ) :
    Ends (treeInsertIe env (mkIe false prev 0 kv) insertFuel) t
      (fun _ t' => t'.maxDepth = t.maxDepth ∧ ∃ H' k, H' ≤ min (H + 1) treeMaxDepth ∧
        AtCursor m t' X H' k (l ++ kv :: r))
      (fun e _ => fails ∨ e = .reparent ∧ treeMaxDepth ≤ H ∧
        rootEntries up (before.map Prod.snd ++ after.map Prod.fst) ≠ []) := by
  obtain ⟨j, B, A, q, hr, hbelow, hp, -, rfl, rfl⟩ := hleaf
  have hlen := q.spine_length
  have hfuel : q.spine.length + 3 ≤ insertFuel := by
    unfold insertFuel treeMaxDepth at *
    omega
  refine (treeInsertIe_spec hl hH (d := Node.nil) (by omega) hr trivial hp trivial trivial hkv rfl
    hfuel).mono (fun _ t' hpost => ?_) fun e _ h => h.imp_right fun ⟨he, hdeep, hroot⟩ => ?_
  · obtain ⟨H', k, -, hle, hon, -, hmax'⟩ := hpost
    refine ⟨hmax', H', k, hle, ?_⟩
    simpa [Path.left, Path.right] using hon.atCursor
  · have hroots := Below.rootEntries hbelow ([] : List KeyValue)
    rw [rootEntries_down] at hroots
    rw [hroots] at hroot
    unfold treeMaxDepth at *
    exact ⟨he, by omega, hroot⟩

end Leaf

/-! ## The separator -/

section Move

variable {j pos v : ℕ} {B : List (TNode (h + 1) × KeyValue)} {kv : KeyValue} {c : TNode (h + 1)}
  {A : List (KeyValue × TNode (h + 1))} {up : TPath H (h + 2)}

/-- Where `INDEX_GET_CURRENT`, or the flags for the last entry, lead from the child `c`. -/
def Leads (flags : WalkFlags) (l : List KeyValue) (c : TNode (h + 1)) (A : List (KeyValue × TNode (h + 1)))
    (r l' r' : List KeyValue) : Prop :=
  (flags = { getCurrent := true } ∧ l' = l ∧ r' = c.elems ++ r) ∨
    (flags = { getLast := true, getLastEntry := true } ∧ A = [] ∧ l' = l ++ c.elems ∧ r' = r)

/-- The end of `remove_leaf`: the entry at the position behind `B`, whose child is gone, moves into a
leaf below the child `c` behind it. -/
theorem moveToLeaf_spec (hl : LawfulEnv env m fails) (hH : H ≤ treeMaxDepth) {flags : WalkFlags}
    (ht : Top m t up j pos (image (allocOf up) true (flatBefore B) v ((kv, num c) :: flatAfter A))
      (Node.labelsBefore B ++ Node.labelsAfter A ++ c.labels ++ X))
    (hB : ∀ x ∈ B, Held m t x.1) (hc : Held m t c) (hA : ∀ x ∈ A, Held m t x.2)
    (hp : PathOk (.down j B ((kv, c) :: A) up)) {l' r' : List KeyValue}
    (hflags : Leads flags (Path.down j B A up).left c A (Path.down j B A up).right l' r') :
    Ends (moveToLeaf env (cursorAt B) flags) t
      (fun _ t' => t'.maxDepth = H - 1 ∧ ∃ H' k, H' ≤ min (H + 1) treeMaxDepth ∧
        AtCursor m t' X H' k (l' ++ kv :: r'))
      (fun e _ => fails ∨ e = .reparent ∧ treeMaxDepth ≤ H ∧
        rootEntries up (B.map Prod.snd ++ kv :: A.map Prod.fst) ≠ []) := by
  obtain ⟨hblock, hBok, hAok, hup⟩ := hp
  obtain ⟨hcok, hAok⟩ := List.forall_mem_cons.mp hAok
  have hkv : KeyValueOk kv := hblock.entries kv (by simp)
  have hblock' : BlockOk (allocOf up) (h + 1) (B.map Prod.snd ++ A.map Prod.fst) := by
    refine ⟨?_, fun kv' hkv' => hblock.entries kv' ?_⟩
    · have hfits := hblock.fits
      unfold usedBytes at hfits ⊢
      simp only [List.map_cons, sizeOfKvs_append, sizeOfKvs_cons] at hfits ⊢
      omega
    · simp only [List.map_cons, List.mem_append, List.mem_cons] at hkv' ⊢
      tauto
  unfold moveToLeaf
  rw [ends_bind, ends_top ht.stack, ends_bind, ends_getIb ht.ib]
  dsimp only
  rw [cursorAt, isLarge_succ, getIe_image, ends_bind, ends_fromExcept_ok, removeIe_image, ends_bind,
    ends_fromExcept_ok, ends_bind, ends_setIb, ends_bind]
  refine (ht.rewrite hl (image (allocOf up) true (flatBefore B) (num c) (flatAfter A))).mono
    (fun _ t₁ hpost => ?_) fun _ _ h => .inl h
  obtain ⟨j', l, hlen, ht₁, hs₁, hmax₁⟩ := hpost
  unfold setPosition
  rw [ends_bind, ends_modify, ht₁.stack]
  dsimp only
  have hco : CursorOnly t₁ { t₁ with stack :=
      ⟨refOf (up.relabel l) j', posOf true (flatBefore B)⟩ :: frames (up.relabel l) } := setStack_cursorOnly _
  have ht₂ := ht₁.seek hco rfl
  rw [← allocOf_relabel up l] at ht₂
  set t₂ : ObjectTree σ := { t₁ with stack :=
    ⟨refOf (up.relabel l) j', posOf true (flatBefore B)⟩ :: frames (up.relabel l) }
  have hs₂ : SameOn m t t₂ (Node.labelsBefore B ++ Node.labelsAfter A ++ c.labels ++ X) :=
    hs₁.trans (hco.sameOn _)
  have hr : Rep m t₂ (.down j' B A (up.relabel l)) c X := by
    refine ht₂.toRep (fun x hx => (hB x hx).congr (hs₂.mono fun v hv => ?_))
      (hc.congr (hs₂.mono fun v hv => by simp [hv])) (fun x hx => (hA x hx).congr (hs₂.mono fun v hv => ?_))
      (List.Perm.refl _)
    · have := mem_labelsBefore hx hv
      simp [this]
    · have := mem_labelsAfter hx hv
      simp [this]
  have hp' : PathOk (.down j' B A (up.relabel l)) := ⟨by rw [allocOf_relabel]; exact hblock', hBok, hAok, hup.relabel l⟩
  have hroots : rootEntries (up.relabel l) (B.map Prod.snd ++ A.map Prod.fst) ≠ [] →
      rootEntries up (B.map Prod.snd ++ kv :: A.map Prod.fst) ≠ [] := by
    intro hne
    rw [rootEntries_relabel] at hne
    exact rootEntries_ne_nil hne fun _ => by simp
  have hsides : (Path.down j' B A (up.relabel l)).left = (Path.down j B A up).left ∧
      (Path.down j' B A (up.relabel l)).right = (Path.down j B A up).right := by
    simp [Path.left, Path.right]
  rcases hflags with ⟨rfl, rfl, rfl⟩ | ⟨rfl, rfl, rfl, rfl⟩
  · refine (getCurrentIe_front hl hH rfl rfl hr hp' hcok (Nat.succ_ne_zero h)).seq' (fun _ t₃ hpost => ?_)
      fun _ _ h => h.elim
    obtain ⟨hmax₃, hleaf⟩ := hpost
    rw [hsides.1, hsides.2] at hleaf
    refine (treeInsertIe_leaf hl hH hleaf.inLeaf hmax₃ hkv _).mono (fun _ t' hpost => ?_)
      fun e _ h => h.imp_right fun h => ⟨h.1, h.2.1, hroots h.2.2⟩
    exact ⟨hpost.1.trans hmax₃, hpost.2⟩
  · refine (getCurrentIe_back hl hH hr hp' hcok (Nat.succ_ne_zero h)).seq' (fun _ t₃ hpost => ?_)
      fun _ _ h => h.elim
    obtain ⟨hmax₃, hleaf⟩ := hpost
    rw [hsides.1, hsides.2] at hleaf
    refine (treeInsertIe_leaf hl hH hleaf hmax₃ hkv _).mono (fun _ t' hpost => ?_)
      fun e _ h => h.imp_right fun h => ⟨h.1, h.2.1, hroots h.2.2⟩
    exact ⟨hpost.1.trans hmax₃, hpost.2⟩

end Move

/-! ## `remove_leaf` -/

theorem ends_currentIe_top {i v : ℕ} {B : List (TNode h × KeyValue)} {A : List (KeyValue × TNode h)}
    {up : TPath H (h + 1)} {L : List ℕ}
    (ht : Top m t up i (cursorAt B) (image (allocOf up) (isLarge h) (flatBefore B) v (flatAfter A)) L)
    {Q : IndexEntry → ObjectTree σ → Prop} {F : ErrorCode → ObjectTree σ → Prop} :
    Ends (currentIe : TreeM σ IndexEntry) t Q F ↔
      Q (headIe (isLarge h) (lastLen (isLarge h) entrySize (flatBefore B)) v (flatAfter A)) t := by
  unfold currentIe
  rw [ends_bind, ends_top ht.stack, ends_bind, ends_getIb ht.ib]
  dsimp only
  rw [cursorAt, getIe_image]
  rfl

/-- The part of `remove_leaf` behind `check_removed_ib`. -/
theorem Hole.fill (hl : LawfulEnv env m fails) (hH : H ≤ treeMaxDepth) {l r R : List KeyValue}
    (ho : Hole m t X H l r R) :
    Ends (do
        let f ← top
        let ie ← currentIe
        if ie.isEnd then
          let ib ← getIb f.cache
          let prevIe ← fromExcept (getIe ib (f.position - ie.prevLen))
          setIb f.cache (← fromExcept (setIeVbn ib f.position prevIe.vbn))
          moveToLeaf env (f.position - ie.prevLen) { getLast := true, getLastEntry := true }
        else moveToLeaf env f.position { getCurrent := true }) t
      (fun _ t' => t'.maxDepth = H - 1 ∧ ∃ H' k, H' ≤ min (H + 1) treeMaxDepth ∧ AtCursor m t' X H' k (l ++ r))
      (fun e _ => fails ∨ e = .reparent ∧ treeMaxDepth ≤ H ∧ R ≠ []) := by
  obtain ⟨h, j, v, B, A, up, ht, hB, hA, hp, hne, rfl, rfl, rfl⟩ := ho
  rw [ends_bind, ends_top ht.stack, ends_bind, ends_currentIe_top ht, headIe_isEnd, headIe_prevLen]
  cases A with
  | cons x A =>
    obtain ⟨kv, c⟩ := x
    obtain ⟨hc, hA⟩ := List.forall_mem_cons.mp hA
    have hL : (Node.labelsBefore B ++ Node.labelsAfter ((kv, c) :: A) ++ X).Perm
        (Node.labelsBefore B ++ Node.labelsAfter A ++ c.labels ++ X) := by
      classical
      refine List.perm_iff_count.mpr fun x => ?_
      simp only [Node.labelsAfter_cons, List.count_append]
      omega
    rw [if_neg (by simp)]
    dsimp only
    refine (moveToLeaf_spec hl hH (ht.perm hL) hB hc hA hp (.inl ⟨rfl, rfl, rfl⟩)).mono
      (fun _ t' hpost => ?_) fun _ _ h => h
    simpa [Path.left, Path.right] using hpost
  | nil =>
    cases B using List.reverseRecOn with
    | nil => simp at hne
    | append_singleton B x =>
      obtain ⟨c, kv⟩ := x
      have hcB := hB (c, kv) (by simp)
      have hBB : ∀ x ∈ B, Held m t x.1 := fun x hx => hB x (by simp [hx])
      rw [flatAfter_nil] at ht ⊢
      have hcut : image (allocOf up) true (flatBefore (B ++ [(c, kv)])) (num c) [] =
          image (allocOf up) true (flatBefore B) (num c) [(kv, num c)] := by
        rw [flatBefore_append]
        exact image_concat _ _ _ _ _ _ _
      have hsub : cursorAt (B ++ [(c, kv)]) -
          lastLen (isLarge (h + 1)) entrySize (flatBefore (B ++ [(c, kv)])) = cursorAt B := by
        unfold cursorAt
        rw [flatBefore_append]
        exact posOf_sub_lastLen _ _
      have hprev : getIe (image (allocOf up) true (flatBefore (B ++ [(c, kv)])) v [])
          (cursorAt B) = .ok (mkIe true (lastLen true entrySize (flatBefore B)) (num c) kv) := by
        rw [flatBefore_append]
        have himage := image_concat (allocOf up) true (flatBefore B) (num c) kv v []
        have hflat : flatBefore [(c, kv)] = [(num c, kv)] := rfl
        rw [hflat, himage]
        exact getIe_image
      have hset : setIeVbn (image (allocOf up) true (flatBefore (B ++ [(c, kv)])) v [])
          (cursorAt (B ++ [(c, kv)])) (num c) =
            .ok (image (allocOf up) true (flatBefore B) (num c) [(kv, num c)]) := by
        rw [← hcut]
        exact setIeVbn_image (num c)
      rw [if_pos (by simp), ends_bind, ends_getIb ht.ib]
      dsimp only
      rw [hsub, hprev, ends_bind, ends_fromExcept_ok]
      have hvbn : (mkIe true (lastLen true entrySize (flatBefore B)) (num c) kv).vbn = num c := rfl
      rw [hvbn, hset, ends_bind, ends_fromExcept_ok, ends_bind, ends_setIb]
      obtain ⟨ht', hs'⟩ := ht.putIb
        (image (allocOf up) true (flatBefore B) (num c) [(kv, num c)])
      have hheld : ∀ x ∈ B, Held m (Tree.putIb t (refOf up j) (image (allocOf up) true (flatBefore B) (num c)
          [(kv, num c)])) x.1 := by
        intro x hx
        refine (hBB x hx).congr (hs'.mono fun v hv => ?_)
        have := mem_labelsBefore hx hv
        simp [this]
      have hc : Held m (Tree.putIb t (refOf up j) (image (allocOf up) true (flatBefore B) (num c)
          [(kv, num c)])) c := hcB.congr (hs'.mono fun v hv => by simp [hv])
      have hp' : PathOk (.down j B ((kv, c) :: []) up) := by
        obtain ⟨hblock, hBok, -, hup⟩ := hp
        rw [List.forall_mem_append] at hBok
        refine ⟨by simpa using hblock, hBok.1, ?_, hup⟩
        simpa using hBok.2
      have hL : (Node.labelsBefore (B ++ [(c, kv)]) ++
            Node.labelsAfter ([] : List (KeyValue × TNode (h + 1))) ++ X).Perm
          (Node.labelsBefore B ++ Node.labelsAfter ([] : List (KeyValue × TNode (h + 1))) ++ c.labels ++ X) := by
        classical
        refine List.perm_iff_count.mpr fun x => ?_
        simp only [Node.labelsBefore_append, Node.labelsBefore_cons, Node.labelsBefore_nil,
          Node.labelsAfter_nil, List.count_append, List.count_nil]
        omega
      refine (moveToLeaf_spec hl hH (ht'.perm hL) hheld hc (by simp) hp'
        (.inr ⟨rfl, rfl, rfl, rfl⟩)).mono (fun _ t' hpost => ?_) fun e _ h => ?_
      · simpa [Path.left, Path.right] using hpost
      · simpa using h

/-- `check_removed_ib` on a leaf that an entry was taken out of. -/
theorem checkRemovedIb_spec (hl : LawfulEnv env m fails) (hH : H ≤ treeMaxDepth) {i : ℕ}
    {B : List (TNode 0 × KeyValue)} {A : List (KeyValue × TNode 0)} {q : TPath H 1}
    (hr : Rep m t (.down i B A q) Node.nil X) (hp : PathOk (.down i B A q)) :
    Ends (checkRemovedIb env) t
      (fun r t' => t'.maxDepth = t.maxDepth ∧
        if r then H ≠ 1 ∧ Hole m t' X H (Path.down i B A q).left (Path.down i B A q).right (rootEntries q [])
        else ∃ H' k, H' ≤ min (H + 1) treeMaxDepth ∧
          AtCursor m t' X H' k ((Path.down i B A q).left ++ (Path.down i B A q).right))
      (fun _ _ => fails) := by
  have hT := hr.toTop
  obtain ⟨ie, hie, hend⟩ := firstIe_image (allocOf q) (isLarge 0) (flatBefore B) (num (Node.nil : TNode 0))
    (flatAfter A)
  unfold checkRemovedIb
  rw [ends_bind, ends_top hT.stack, ends_bind, ends_getIb hT.ib, hie, ends_bind, ends_fromExcept_ok]
  by_cases hempty : B = [] ∧ A = []
  · obtain ⟨rfl, rfl⟩ := hempty
    rw [if_neg (by simp [hend]), ends_bind, ends_get]
    cases q with
    | top =>
      have hdepth : depth t = 0 := by
        unfold depth
        rw [hr.stack]
        rfl
      rw [if_pos hdepth, ends_pure, if_neg (by simp)]
      exact ⟨rfl, 1, 0, by omega, 0, i, [], Node.nil, [], .top, hr, hp, trivial, fun _ h => absurd rfl h, rfl, rfl⟩
    | down j B A up =>
      have hdepth : depth t ≠ 0 := by
        unfold depth
        rw [hr.stack]
        simp [frames]
      have hlen := up.spine_length
      have hX : (Node.labelsBefore ([] : List (TNode 0 × KeyValue)) ++
          Node.labelsAfter ([] : List (KeyValue × TNode 0)) ++ Node.labels (Node.nil : TNode 0) ++ X).Perm X :=
        List.Perm.refl X
      rw [if_neg hdepth]
      refine (freeEmptyIbs_spec hl (hT.perm hX) hp.2.2.2 (by omega)).mono (fun r t' hpost => ?_) fun _ _ h => h
      obtain ⟨hmax, hres⟩ := hpost
      refine ⟨hmax, ?_⟩
      cases r with
      | true =>
        rw [if_pos rfl] at hres ⊢
        exact ⟨by omega, by simpa [Path.left, Path.right] using hres⟩
      | false =>
        rw [if_neg (by simp)] at hres ⊢
        obtain ⟨hleft, hright, j', hr'⟩ := hres
        refine ⟨1, 0, by omega, 0, j', [], Node.nil, [], .top, hr', ⟨⟨by decide, by simp⟩, by simp, by simp,
          trivial⟩, trivial, fun _ h => absurd rfl h, ?_, rfl⟩
        simp only [Path.left, Path.right] at hleft hright ⊢
        simp [hleft, hright]
  · have hne : B ≠ [] ∨ A ≠ [] := by tauto
    have hie' : ie.isEnd = false := by
      rw [hend]
      cases B with
      | nil => cases A with
        | nil => simp at hne
        | cons x A => rfl
      | cons x B => rfl
    rw [if_pos (by simp [hie']), ends_pure, if_neg (by simp)]
    exact ⟨rfl, H, _, by omega, 0, i, B, Node.nil, A, q, hr, hp, trivial, fun _ _ => hne, by simp, rfl⟩

/-- `remove_leaf`: the entry under the cursor is gone, and the others are there. -/
theorem removeLeaf_spec (hl : LawfulEnv env m fails) (hH : H ≤ treeMaxDepth) {i : ℕ}
    {B : List (TNode 0 × KeyValue)} {b d : TNode 0} {kv : KeyValue} {A : List (KeyValue × TNode 0)}
    {q : TPath H 1} (hr : Rep m t (.down i B ((kv, d) :: A) q) b X) (hp : PathOk (.down i B ((kv, d) :: A) q))
    (hmax : H ≠ 1 → t.maxDepth = H - 1) :
    Ends (removeLeaf env) t
      (fun _ t' => t'.maxDepth = t.maxDepth ∧ ∃ H' k, H' ≤ min (H + 1) treeMaxDepth ∧
        AtCursor m t' X H' k ((Path.down i B A q).left ++ (Path.down i B A q).right))
      (fun e _ => fails ∨ e = .reparent ∧ treeMaxDepth ≤ H ∧ rootEntries q [] ≠ []) := by
  have hT := hr.toTop
  obtain ⟨hblock, hBok, hAok, hup⟩ := hp
  have hblock' : BlockOk (allocOf q) 0 (B.map Prod.snd ++ A.map Prod.fst) := by
    refine ⟨?_, fun kv' hkv' => hblock.entries kv' ?_⟩
    · have hfits := hblock.fits
      unfold usedBytes at hfits ⊢
      simp only [List.map_cons, sizeOfKvs_append, sizeOfKvs_cons] at hfits ⊢
      omega
    · simp only [List.map_cons, List.mem_append, List.mem_cons] at hkv' ⊢
      tauto
  unfold removeLeaf
  rw [ends_bind, ends_top hT.stack, ends_bind, ends_getIb hT.ib]
  dsimp only
  rw [cursorAt, flatAfter_cons, removeIe_image, ends_bind, ends_fromExcept_ok, ends_bind, ends_setIb, ends_bind]
  refine (hT.rewrite hl (image (allocOf q) (isLarge 0) (flatBefore B) (num d) (flatAfter A))).mono
    (fun _ t₁ hpost => ?_) fun _ _ h => .inl h
  obtain ⟨i', l, -, ht₁, hs₁, hmax₁⟩ := hpost
  rw [← allocOf_relabel q l] at ht₁
  have hr₁ : Rep m t₁ (.down i' B A (q.relabel l)) d X := by
    refine ht₁.toRep (fun _ _ => trivial) trivial (fun _ _ => trivial) ?_
    simp [Node.labelsBefore, Node.labelsAfter]
  have hp₁ : PathOk (.down i' B A (q.relabel l)) :=
    ⟨by rw [allocOf_relabel]; exact hblock', hBok, fun x hx => hAok x (List.mem_cons_of_mem _ hx), hup.relabel l⟩
  have hsides : (Path.down i' B A (q.relabel l)).left = (Path.down i B A q).left ∧
      (Path.down i' B A (q.relabel l)).right = (Path.down i B A q).right := by
    simp [Path.left, Path.right]
  rw [ends_bind]
  refine (checkRemovedIb_spec hl hH hr₁ hp₁).mono (fun r t₂ hpost => ?_) fun _ _ h => .inl h
  obtain ⟨hmax₂, hres⟩ := hpost
  rw [hsides.1, hsides.2, rootEntries_relabel] at hres
  cases r with
  | true =>
    rw [if_pos rfl] at hres
    rw [if_pos rfl]
    refine (hres.2.fill hl hH).mono (fun _ t' hpost => ?_) fun _ _ h => h
    obtain ⟨hmax₃, H', k, hle, hat⟩ := hpost
    exact ⟨hmax₃.trans (hmax hres.1).symm, H', k, hle, hat⟩
  | false =>
    rw [if_neg (by simp)] at hres
    rw [if_neg (by simp), ends_pure]
    exact ⟨hmax₂.trans hmax₁, hres⟩

end IndexFs.Tree
