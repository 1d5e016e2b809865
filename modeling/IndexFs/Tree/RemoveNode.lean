import IndexFs.Tree.Remove

/-!
# `remove_node`

An entry of a block with children is replaced by the entry behind it, which is the
first one of a leaf, and is removed there.

* `popTo_spec`: back from the leaf to the block.
* `removeNode_fits`: if the block has room for the replacement, the entry is gone and
  the others are there.
* `removeNode_split`: if it has none, the block is split, the cursor is left on
  another entry, and another entry than the copy in the leaf is removed.
* `removeNode_deep`: if the root would have to move, which it cannot, the call fails.
-/

namespace IndexFs.Tree

open IndexFs.Multiway

variable {σ : Type} {m : ContainerModel σ} {t t' : ObjectTree σ} {H h : ℕ} {X : List ℕ} {env : TreeEnv σ}
  {fails : Prop}

/-! ## An entry that has room in its block -/

/-- `tree_insert_ie` for an entry that has room in a block of its level: it is inserted there, and if that
is the root its block may have moved below an empty root before. -/
theorem treeInsertIe_room (hl : LawfulEnv env m fails) (hH : H ≤ treeMaxDepth) {i : ℕ}
    {before : List (TNode h × KeyValue)} {c d : TNode h} {after : List (KeyValue × TNode h)}
    {up : TPath H (h + 1)} {kv : KeyValue} {ie : IndexEntry} {prev : ℕ} (hdepth : H ≤ t.maxDepth + 1)
    (hr : Rep m t (.down i before after up) c (d.labels ++ X)) (hd : Held m t d)
    (hpath : PathOk (.down i before after up)) (hcok : NodeOk c) (hkv : KeyValueOk kv)
    (hie : ie = mkIe (isLarge h) prev (num d) kv)
    (hroom : usedBytes (isLarge h) (before.map Prod.snd ++ after.map Prod.fst) + ieLen (isLarge h) kv ≤
      blockSize) (fuel : ℕ) :
    Ends (treeInsertIe env ie (fuel + 2)) t
      (fun _ t' => ∃ (H' j : ℕ) (up' : TPath H' (h + 1)),
        Rep m t' (.down j before ((kv, c) :: after) up') d X ∧ PathOk (.down j before ((kv, c) :: after) up') ∧
        up'.left = up.left ∧ up'.right = up.right ∧ H' ≤ treeMaxDepth ∧
        (H' = H ∨ H' = H + 1 ∧ ∀ kvs, rootEntries up' kvs = []))
      (fun e _ => fails ∨ e = .reparent ∧ treeMaxDepth ≤ t.maxDepth + 1) := by
  by_cases hfits : usedBytes (isLarge h) (before.map Prod.snd ++ after.map Prod.fst) + ieLen (isLarge h) kv ≤
      allocOf up
  · refine (treeInsertIe_here hkv hie hl hr hd hpath hcok hfits (fuel + 1)).mono (fun _ t' hpost => ?_)
      fun _ _ h => .inl h
    obtain ⟨j, l, hr', hp', -⟩ := hpost
    exact ⟨H, j, up.relabel l, hr', hp', by simp, by simp, hH, .inl rfl⟩
  cases up with
  | down j b a up => exact absurd hroom hfits
  | top =>
    have hdepth₀ : depth t = 0 := by
      unfold depth
      rw [hr.stack]
      rfl
    unfold treeInsertIe
    rw [ends_bind, ends_top hr.stack, ends_bind, ends_getIb hr.topIb, if_neg, ends_bind, ends_get,
      if_pos hdepth₀, ends_bind, ends_codeOf]
    · refine (reparentRoot_spec hl hr hd).mono (fun _ t₁ hpost => ?_) fun e t' h => ?_
      · obtain ⟨n, j, hr₁, hd₁, hlt, hmax₁⟩ := hpost
        have hpath₁ : PathOk (.down n before after (.down j [] [] (.top : TPath (h + 2) (h + 2)))) := by
          obtain ⟨hblock, hbefore, hafter, -⟩ := hpath
          refine ⟨⟨hblock.fits.trans (allocOf_le _), hblock.entries⟩, hbefore, hafter, ⟨?_, by simp⟩,
            by simp, by simp, trivial⟩
          have hend := endLen_bounds (isLarge (h + 1))
          change usedBytes (isLarge (h + 1)) [] ≤ attrRecordContentSize
          unfold usedBytes attrRecordContentSize indexBlockSize
          rw [sizeOfKvs_nil]
          omega
        refine (treeInsertIe_here hkv hie hl hr₁ hd₁ hpath₁ hcok hroom fuel).mono (fun _ t' hins => ?_)
          fun _ _ h => .inl h
        obtain ⟨j', l, hr', hp', -⟩ := hins
        refine ⟨h + 2, j', _, hr', hp', ?_, ?_, by omega, .inr ⟨rfl, fun kvs => ?_⟩⟩
        · rw [Path.left_relabel]
          simp [Path.left]
        · rw [Path.right_relabel]
          simp [Path.right]
        · rw [rootEntries_relabel]
          rfl
      · rcases h with h | ⟨rfl, hmax⟩
        · split_ifs
          · exact .inl h
          · exact .inl h
        · exact .inr ⟨rfl, by omega⟩
    · rw [room_iff hkv hie hpath.1]
      exact hfits

/-! ## To the leaf and back -/

theorem nodeOk_elems_ne {n : TNode (h + 1)} (hn : NodeOk n) : n.elems ≠ [] := by
  induction h with
  | zero =>
    obtain ⟨i, c, rest, rfl⟩ := n.exists_block
    have hplug : Node.block i c rest = Node.plug i [] c rest := rfl
    rw [hplug, nodeOk_plug] at hn
    rw [Node.elems_block]
    cases rest with
    | nil => simpa using hn.1.2 rfl
    | cons x rest => simp
  | succ h ih =>
    obtain ⟨i, c, rest, rfl⟩ := n.exists_block
    have hplug : Node.block i c rest = Node.plug i [] c rest := rfl
    rw [hplug, nodeOk_plug] at hn
    rw [Node.elems_block]
    exact List.append_ne_nil_of_left_ne_nil (ih hn.2.2.1) _

/-- The `while` of `remove_node` undoes the way down. -/
theorem popTo_spec {i : ℕ} {before : List (TNode h × KeyValue)} {after : List (KeyValue × TNode h)}
    {up : TPath H (h + 1)} {c : TNode h} {h' : ℕ} {q : TPath H h'} {d : TNode h'}
    (hb : Path.Below (.down i before after up) c q d) (hr : Rep m t q d X) {n : ℕ} (hn : q.spine.length ≤ n)
    {F : ErrorCode → ObjectTree σ → Prop} :
    Ends (popTo up.spine.length n : TreeM σ Unit) t
      (fun _ t' => Rep m t' (.down i before after up) c X ∧ t'.maxDepth = t.maxDepth) F := by
  induction hb generalizing t n with
  | refl =>
    obtain ⟨n, rfl⟩ : ∃ n', n = n' + 1 := ⟨n - 1, by simp only [Path.spine, List.length_cons] at hn; omega⟩
    have hdepth : depth t = up.spine.length := by
      unfold depth
      rw [hr.stack]
      simp [frames, frames_length]
    unfold popTo
    rw [ends_bind, ends_get, if_neg (by omega), ends_pure]
    exact ⟨hr, rfl⟩
  | @push h' q j B d A hb ih =>
    obtain ⟨n, rfl⟩ : ∃ n', n = n' + 1 := ⟨n - 1, by simp only [Path.spine, List.length_cons] at hn; omega⟩
    simp only [Path.spine, List.length_cons] at hn
    have hle := Below.height_le hb
    have hlen := up.spine_length
    have hlen' := q.spine_length
    have hdepth : depth t > up.spine.length := by
      unfold depth
      rw [hr.stack]
      simp only [frames, List.length_cons, frames_length]
      omega
    unfold popTo
    rw [ends_bind, ends_get, if_pos hdepth, ends_bind]
    cases q with
    | top =>
      simp only [Path.spine, List.length_nil] at hlen'
      omega
    | down j' B' A' q =>
      refine popCacheStack_spec rfl hr fun t₁ hr₁ hmax₁ _ => ?_
      refine (ih hr₁ (by omega)).mono (fun _ t' hpost => ?_) fun _ _ h => h
      exact ⟨hpost.1, hpost.2.trans hmax₁⟩

/-! ## `remove_node` -/

/-- Two entries next to each other stay if another one is taken out. -/
theorem sublist_of_erase {α : Type} {l r p s : List α} {x a b : α} (heq : l ++ x :: r = p ++ a :: b :: s)
    (hx : l.length < p.length ∨ p.length + 1 < l.length) : [a, b].Sublist (l ++ r) := by
  rcases List.append_eq_append_iff.mp heq with ⟨d, rfl, hd⟩ | ⟨d, rfl, hd⟩
  · cases d with
    | nil =>
      rw [List.append_nil] at hx
      omega
    | cons y d =>
      obtain ⟨rfl, rfl⟩ := List.cons.inj hd
      have hsub : [a, b].Sublist (a :: b :: s) := (List.nil_sublist s).cons_cons b |>.cons_cons a
      exact hsub.trans ((List.sublist_append_right d _).trans (List.sublist_append_right l _))
  · match d, hd with
    | [], _ =>
      rw [List.append_nil] at hx
      omega
    | [y], _ =>
      rw [List.length_append] at hx
      simp at hx
    | y :: z :: d, hd =>
      rw [List.cons_append, List.cons_append, List.cons.injEq, List.cons.injEq] at hd
      obtain ⟨rfl, rfl, -⟩ := hd
      have hsub : [a, b].Sublist (a :: b :: d) := (List.nil_sublist d).cons_cons b |>.cons_cons a
      exact hsub.trans ((List.sublist_append_right p _).trans (List.sublist_append_left _ r))

section Node

variable {i : ℕ} {B : List (TNode (h + 1) × KeyValue)} {b b' : TNode (h + 1)} {kv : KeyValue}
  {A : List (KeyValue × TNode (h + 1))} {q : TPath H (h + 2)}

/-- `walk_tree` from an entry of a block with children goes to the first entry behind it, in a leaf. -/
theorem walkTree_down (hl : LawfulEnv env m fails) (hH : H ≤ treeMaxDepth)
    (hr : Rep m t (.down i B ((kv, b') :: A) q) b X) (hp : PathOk (.down i B ((kv, b') :: A) q)) (hb : NodeOk b) :
    Ends (walkTree env {}) t
      (fun _ t' => t'.maxDepth = H - 1 ∧ PathOk (.down i (B ++ [(b, kv)]) A q) ∧ NodeOk b' ∧
        OnFirst m t' X (.down i (B ++ [(b, kv)]) A q) b' (Path.down i (B ++ [(b, kv)]) A q).left
          (b'.elems ++ (Path.down i (B ++ [(b, kv)]) A q).right))
      (fun _ _ => False) := by
  obtain ⟨hblock, hB, hA, hq⟩ := hp
  obtain ⟨hb', hA⟩ := List.forall_mem_cons.mp hA
  have hp' : PathOk (.down i (B ++ [(b, kv)]) A q) := by
    refine ⟨by simpa using hblock, fun x hx => ?_, hA, hq⟩
    rcases List.mem_append.mp hx with hx | hx
    · exact hB x hx
    · obtain rfl := List.mem_singleton.mp hx
      exact hb
  unfold walkTree
  rw [if_neg (by simp), if_neg (by simp), if_pos (by simp)]
  refine (getNextIe_spec hr).seq fun _ t₁ hpost => ?_
  obtain ⟨hr₁, -, -⟩ := hpost
  refine (getCurrentIe_front hl hH rfl rfl hr₁ hp' hb' (Nat.succ_ne_zero h)).mono (fun _ t' hpost => ?_)
    fun _ _ h => h
  exact ⟨hpost.1, hp', hb', hpost.2⟩

/-- `remove_node` up to the insertion of the replacement `succ`, whose child is that of the old entry. -/
theorem removeNode_replace (hl : LawfulEnv env m fails) (hH : H ≤ treeMaxDepth)
    (hr : Rep m t (.down i B ((kv, b') :: A) q) b X) (hp : PathOk (.down i B ((kv, b') :: A) q)) (hb : NodeOk b)
    {Q : Unit → ObjectTree σ → Prop} {F : ErrorCode → ObjectTree σ → Prop} (hF : ∀ e t', fails → F e t')
    (hgo : ∀ t₁ i' l prev succ s, b'.elems = succ :: s → NodeOk b' → KeyValueOk succ →
      Rep m t₁ (.down i' B A (q.relabel l)) b' (b.labels ++ X) → Held m t₁ b →
      PathOk (.down i' B A (q.relabel l)) → t₁.maxDepth = H - 1 →
      Ends (do
        treeInsertIe env (mkIe true prev (num b) succ) insertFuel
        walkTree env {}
        removeLeaf env) t₁ Q F) :
    Ends (removeNode env) t Q F := by
  have hblock := hp.1
  have hdepth : depth t = q.spine.length := by
    unfold depth
    rw [hr.stack]
    simp [frames, frames_length]
  unfold removeNode
  rw [ends_bind, ends_get, ends_bind, ends_currentIe hr, curIe_vbn, curIe_cons, hdepth]
  refine (walkTree_down hl hH hr hp hb).seq' (fun _ t₂ hpost => ?_) fun _ _ h => h.elim
  obtain ⟨hmax₂, hp₂, hb', j, succ, d, A', q', hr₂, hbelow, hpleaf, hleft, hright⟩ := hpost
  have hsucc : ∃ s, b'.elems = succ :: s := by
    obtain ⟨x, s, hx⟩ := List.exists_cons_of_ne_nil (nodeOk_elems_ne hb')
    rw [hx] at hright
    simp only [Path.right, Node.elemsAfter_cons, List.cons_append, List.cons.injEq] at hright
    exact ⟨s, by rw [hx, hright.1]⟩
  obtain ⟨s, hs⟩ := hsucc
  have hok : KeyValueOk succ := hpleaf.1.entries succ (by simp)
  rw [ends_bind, ends_currentIe hr₂, curIe_cons, dumpIeAddVbn_mkIe (ieLen_lt hok), ends_bind, ends_get]
  have hlen : (Path.down j [] ((succ, d) :: A') q').spine.length ≤ t₂.stack.length := by
    rw [hr₂.stack, frames_length]
  rw [ends_bind]
  refine (popTo_spec hbelow hr₂ hlen).mono (fun _ t₃ hpost => ?_) fun _ _ h => h
  obtain ⟨hr₃, hmax₃⟩ := hpost
  -- back on the old entry
  have hpos : cursorAt (B ++ [(b, kv)]) - ieLen (isLarge (h + 1)) kv = cursorAt B := by
    rw [cursorAt_concat]
    omega
  rw [ends_bind, ends_top hr₃.stack]
  unfold setPosition
  rw [ends_bind, ends_modify, hr₃.stack]
  dsimp only [frames]
  change Ends _ { t₃ with stack :=
    ⟨refOf q i, cursorAt (B ++ [(b, kv)]) - ieLen (isLarge (h + 1)) kv⟩ :: frames q } _ _
  rw [hpos]
  have hr₄ := hr₃.prev
  set t₄ : ObjectTree σ := { t₃ with stack := ⟨refOf q i, cursorAt B⟩ :: frames q }
  have hT := hr₄.toTop
  rw [ends_bind, ends_top hT.stack, ends_bind, ends_getIb hT.ib]
  dsimp only
  rw [cursorAt, flatAfter_cons, removeIe_image, ends_bind, ends_fromExcept_ok, ends_bind, ends_setIb, ends_bind]
  refine (hT.rewrite hl (image (allocOf q) (isLarge (h + 1)) (flatBefore B) (num b') (flatAfter A))).mono
    (fun _ t₅ hpost => ?_) fun e t' h => hF e t' h
  obtain ⟨i', l, -, ht₅, hs₅, hmax₅⟩ := hpost
  rw [← allocOf_relabel q l] at ht₅
  obtain ⟨hb'h, hAh⟩ := List.forall_mem_cons.mp hr₄.path.2.2.1
  refine hgo t₅ i' l _ succ s hs hb' hok (ht₅.toRep (fun x hx => (hr₄.path.2.1 x hx).congr (hs₅.mono fun v hv => ?_))
    (hb'h.congr (hs₅.mono fun v hv => ?_)) (fun x hx => (hAh x hx).congr (hs₅.mono fun v hv => ?_)) ?_)
    (hr₄.child.congr (hs₅.mono fun v hv => ?_)) ⟨⟨?_, fun kv' hkv' => hblock.entries kv' ?_⟩, hp.2.1,
      fun x hx => hp.2.2.1 x (List.mem_cons_of_mem _ hx), hp.2.2.2.relabel l⟩ ?_
  · have := mem_labelsBefore hx hv
    simp [this]
  · simp [hv]
  · have := mem_labelsAfter hx hv
    simp [this]
  · classical
    refine List.perm_iff_count.mpr fun x => ?_
    simp only [Node.labelsAfter_cons, List.count_append]
    omega
  · simp [hv]
  · have hfits := hblock.fits
    rw [allocOf_relabel]
    unfold usedBytes at hfits ⊢
    simp only [List.map_cons, sizeOfKvs_append, sizeOfKvs_cons] at hfits ⊢
    omega
  · simp only [List.map_cons, List.mem_append, List.mem_cons] at hkv' ⊢
    tauto
  · exact hmax₅.trans (hmax₃.trans hmax₂)

/-- The entry behind one of a block with children is removed. -/
theorem removeNext_spec (hl : LawfulEnv env m fails) (hH : H ≤ treeMaxDepth)
    (hr : Rep m t (.down i B ((kv, b') :: A) q) b X) (hp : PathOk (.down i B ((kv, b') :: A) q)) (hb : NodeOk b) :
    Ends (do walkTree env {}; removeLeaf env) t
      (fun _ t' => t'.maxDepth = H - 1 ∧ ∃ x s, b'.elems = x :: s ∧
        ∃ H' k, H' ≤ min (H + 1) treeMaxDepth ∧ AtCursor m t' X H' k
        ((Path.down i (B ++ [(b, kv)]) A q).left ++ (s ++ (Path.down i (B ++ [(b, kv)]) A q).right)))
      (fun e _ => fails ∨ e = .reparent ∧ treeMaxDepth ≤ H ∧
        rootEntries q (B.map Prod.snd ++ kv :: A.map Prod.fst) ≠ []) := by
  refine (walkTree_down hl hH hr hp hb).seq' (fun _ t₁ hpost => ?_) fun _ _ h => h.elim
  obtain ⟨hmax, -, hb', j, x, d, A', q', hr₁, hbelow, hpleaf, hleft, hright⟩ := hpost
  have hs : ∃ s, b'.elems = x :: s := by
    obtain ⟨y, s, hy⟩ := List.exists_cons_of_ne_nil (nodeOk_elems_ne hb')
    rw [hy] at hright
    simp only [Path.right, Node.elemsAfter_cons, List.cons_append, List.cons.injEq] at hright
    exact ⟨s, by rw [hy, hright.1]⟩
  obtain ⟨s, hs⟩ := hs
  refine (removeLeaf_spec hl hH hr₁ hpleaf fun _ => hmax).mono (fun _ t' hpost => ?_) fun e _ herr => ?_
  · obtain ⟨hmax', H', k, hle, hat⟩ := hpost
    have hrest : (Path.down j [] A' q').right = s ++ (Path.down i (B ++ [(b, kv)]) A q).right := by
      rw [hs] at hright
      simpa [Path.right] using hright
    have hsame : (Path.down j [] A' q').left = (Path.down i (B ++ [(b, kv)]) A q).left := hleft
    rw [hsame, hrest] at hat
    exact ⟨hmax'.trans hmax, x, s, hs, H', k, hle, hat⟩
  · refine herr.imp_right ?_
    rintro ⟨he, hdeep, hroot⟩
    refine ⟨he, hdeep, ?_⟩
    have hroots := Below.rootEntries hbelow ([] : List KeyValue)
    rw [rootEntries_down] at hroots
    have hne : rootEntries q' (List.map Prod.snd ([] : List (TNode 0 × KeyValue)) ++
        List.map Prod.fst ((x, d) :: A')) ≠ [] := rootEntries_ne_nil hroot fun h => absurd rfl h
    rw [hroots] at hne
    simpa using hne

/-- `remove_node` when the block has room for the replacement. -/
theorem removeNode_fits (hl : LawfulEnv env m fails) (hH : H ≤ treeMaxDepth)
    (hr : Rep m t (.down i B ((kv, b') :: A) q) b X) (hp : PathOk (.down i B ((kv, b') :: A) q)) (hb : NodeOk b)
    (hroom : ∀ succ s, b'.elems = succ :: s →
      usedBytes true (B.map Prod.snd ++ A.map Prod.fst) + ieLen true succ ≤ blockSize) :
    Ends (removeNode env) t
      (fun _ t' => t'.maxDepth ≤ H ∧ ∃ H' k, H' ≤ min (H + 2) treeMaxDepth ∧ AtCursor m t' X H' k
        ((Path.down i B ((kv, b') :: A) q).left ++ b.elems ++ (b'.elems ++ (Path.down i B A q).right)))
      (fun e _ => fails ∨ e = .reparent ∧ treeMaxDepth ≤ H) := by
  have hlen := q.spine_length
  refine removeNode_replace hl hH hr hp hb (fun _ _ h => .inl h)
    fun t₁ i' l prev succ s hs hb' hok hr₁ hheld hp₁ hmax => ?_
  have hfuel : insertFuel = insertFuel - 2 + 2 := by decide
  rw [hfuel]
  refine (treeInsertIe_room hl hH (by omega) hr₁ hheld hp₁ hb' hok rfl (hroom succ s hs) _).seq'
    (fun _ t₂ hpost => ?_) fun e _ herr => herr.imp_right fun herr => ⟨herr.1, by omega⟩
  obtain ⟨H', j, up', hr₂, hp₂, hleft, hright, hH', hroot⟩ := hpost
  refine (removeNext_spec hl hH' hr₂ hp₂ hb).mono (fun _ t' hpost => ?_) fun e _ herr => ?_
  · obtain ⟨hmax, x, s', hs', H'', k, hle, hat⟩ := hpost
    refine ⟨by omega, H'', k, by omega, ?_⟩
    rw [hs] at hs' ⊢
    obtain ⟨rfl, rfl⟩ := List.cons.inj hs'
    simpa [Path.left, Path.right, hleft, hright] using hat
  · refine herr.imp_right ?_
    rintro ⟨he, hdeep, hne⟩
    refine ⟨he, ?_⟩
    rcases hroot with rfl | ⟨-, hroot⟩
    · exact hdeep
    · exact absurd (hroot _) hne

/-- `remove_node` when the block has no room for the replacement: the block is split, and the entry that
is removed in the end is not the copy of the replacement in the leaf. -/
theorem removeNode_split (hl : LawfulEnv env m fails) (hH : H ≤ treeMaxDepth)
    (hr : Rep m t (.down i B ((kv, b') :: A) q) b X) (hp : PathOk (.down i B ((kv, b') :: A) q)) (hb : NodeOk b)
    {succ : KeyValue} {s : List KeyValue} (hs : b'.elems = succ :: s)
    (hfull : blockSize < usedBytes true (B.map Prod.snd ++ A.map Prod.fst) + ieLen true succ) :
    Ends (removeNode env) t
      (fun _ t' => t'.maxDepth ≤ H ∧ ∃ H' k l, H' ≤ min (H + 2) treeMaxDepth ∧ AtCursor m t' X H' k l ∧
        [succ, succ].Sublist l ∧ l.Sublist ((Path.down i B ((kv, b') :: A) q).left ++ b.elems ++
          (succ :: b'.elems ++ (Path.down i B A q).right)))
      (fun e _ => fails ∨ e = .reparent ∧ treeMaxDepth ≤ H + 1) := by
  have hlen := q.spine_length
  refine removeNode_replace hl hH hr hp hb (fun _ _ h => .inl h)
    fun t₁ i' l prev succ' s' hs' hb' hok hr₁ hheld hp₁ hmax => ?_
  obtain ⟨rfl, rfl⟩ := List.cons.inj (hs.symm.trans hs')
  have hlen' := (q.relabel l).spine_length
  refine (treeInsertIe_spec hl hH (by omega) hr₁ hheld hp₁ hb' hb hok rfl ?_).seq'
    (fun _ t₂ hpost => ?_) fun e _ herr => herr.imp_right fun herr => ⟨herr.1, by omega⟩
  · unfold insertFuel treeMaxDepth at *
    omega
  obtain ⟨H', k, -, hle, hon, hlands, hmax₂⟩ := hpost
  unfold Lands at hlands
  rw [if_neg (by simpa [isLarge] using hfull)] at hlands
  obtain ⟨h₂, j, B₂, b₂, kv₂, b₂', A₂, q₂, hr₂, hp₂, hb₂, hl₂, hk₂, hh⟩ := hon
  obtain ⟨h₂, rfl⟩ : ∃ h₃, h₂ = h₃ + 1 := ⟨h₂ - 1, by omega⟩
  refine (removeNext_spec hl (hle.trans (min_le_right _ _)) hr₂ hp₂ hb₂).mono (fun _ t' hpost => ?_)
    fun e _ herr => herr.imp_right fun herr => ⟨herr.1, by omega⟩
  obtain ⟨hmax', x, s₂, hs₂, H'', k', hle', hat⟩ := hpost
  refine ⟨by omega, H'', k', _, by omega, hat, ?_⟩
  have hall : (Path.down j (B₂ ++ [(b₂, kv₂)]) A₂ q₂).left ++
        x :: (s₂ ++ (Path.down j (B₂ ++ [(b₂, kv₂)]) A₂ q₂).right) =
      (Path.down i B ((kv, b') :: A) q).left ++ b.elems ++
        succ :: succ :: (s ++ (Path.down i B A q).right) := by
    simpa [Path.left, Path.right, hs, hs₂] using hl₂
  have hleft : (Path.down j (B₂ ++ [(b₂, kv₂)]) A₂ q₂).left.length = k + 1 := by
    simp only [Path.left, Node.elemsBefore_append, Node.elemsBefore_cons, Node.elemsBefore_nil,
      List.length_append, List.length_cons, List.length_nil] at hk₂ ⊢
    omega
  have hb₁ := List.length_pos_iff.mpr (nodeOk_elems_ne hb)
  rw [hs] at hlands ⊢
  constructor
  · refine sublist_of_erase hall ?_
    simp only [Path.left, Path.left_relabel, List.length_append, List.length_cons] at hleft hlands ⊢
    omega
  · rw [List.cons_append, List.cons_append, ← hall]
    exact (List.Sublist.refl _).append (List.sublist_cons_self _ _)

/-- `remove_node` in the root of a tree of `TREE_MAX_DEPTH` levels that has no room for the replacement: the
root cannot move, and the old entry is gone already. -/
theorem removeNode_deep (hl : LawfulEnv env m fails) {B : List (TNode (h + 1) × KeyValue)} {b b' : TNode (h + 1)}
    {A : List (KeyValue × TNode (h + 1))} (hdeep : h + 2 = treeMaxDepth)
    (hr : Rep m t (.down i B ((kv, b') :: A) (.top : TPath (h + 2) (h + 2))) b X)
    (hp : PathOk (.down i B ((kv, b') :: A) (.top : TPath (h + 2) (h + 2)))) (hb : NodeOk b) {succ : KeyValue}
    {s : List KeyValue} (hs : b'.elems = succ :: s)
    (hfull : attrRecordContentSize < usedBytes true (B.map Prod.snd ++ A.map Prod.fst) + ieLen true succ) :
    Ends (removeNode env) t (fun _ _ => False) (fun e _ => fails ∨ e = .reparent) := by
  refine removeNode_replace hl hdeep.le hr hp hb (fun _ _ h => .inl h)
    fun t₁ i' l prev succ' s' hs' hb' hok hr₁ hheld hp₁ hmax => ?_
  obtain ⟨rfl, rfl⟩ := List.cons.inj (hs.symm.trans hs')
  rw [Path.relabel_top] at hr₁ hp₁
  have hdepth : depth t₁ = 0 := by
    unfold depth
    rw [hr₁.stack]
    rfl
  have hfuel : insertFuel = insertFuel - 1 + 1 := by decide
  rw [ends_bind, hfuel]
  unfold treeInsertIe
  rw [ends_bind, ends_top hr₁.stack, ends_bind, ends_getIb hr₁.topIb, if_neg, ends_bind, ends_get, if_pos hdepth,
    ends_bind, ends_codeOf]
  · unfold reparentRoot
    rw [ends_bind, ends_get, if_pos (by omega), ends_throw, if_neg (by decide), ends_throw]
    exact .inr rfl
  · rw [← isLarge_succ h] at hfull ⊢
    rw [room_iff hok rfl hp₁.1]
    exact not_le.mpr hfull

end Node

end IndexFs.Tree
