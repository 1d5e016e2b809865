import IndexFs.Tree.Split

/-!
# `reparent_root` and `tree_insert_ie`

* `reparentRoot_spec`: an overfull root moves into a new block below an empty root.
* `insertFit_spec`: the round of `tree_insert_ie` that inserts the entry.
* `treeInsertIe_spec`: the pending entry, with its child, is put before the cursor, and
  the tree is well-formed again.
-/

namespace IndexFs.Tree

open IndexFs.Multiway

variable {σ : Type} {m : ContainerModel σ} {t t' : ObjectTree σ} {H h : ℕ} {env : TreeEnv σ} {fails : Prop}
  {i : ℕ} {before : List (TNode h × KeyValue)} {c d : TNode h} {after : List (KeyValue × TNode h)}
  {up : TPath H (h + 1)} {X : List ℕ} {kv : KeyValue} {ie : IndexEntry} {prev : ℕ}

/-! ## `reparent_root` -/

theorem initIb_image (alloc : ℕ) : initIb true alloc = image alloc true [] 0 [] := rfl

/-- The root block of a tree is the root block of a tree that is higher by one. -/
theorem Top.higher {i pos : ℕ} {ib : IndexBlock} {L : List ℕ} (ht : Top m t (.top : TPath H H) i pos ib L) :
    Top m t (.top : TPath (H + 1) (H + 1)) i pos ib L :=
  ⟨ht.inv, ht.stack, ht.ib, ht.path, ht.owned⟩

/-- `reparent_root` puts the block on top, which is the root, below a new root. -/
theorem reparentRoot_spec (hl : LawfulEnv env m fails) {before : List (TNode H × KeyValue)} {c d : TNode H}
    {after : List (KeyValue × TNode H)}
    (hr : Rep m t (.down i before after (.top : TPath (H + 1) (H + 1))) c (d.labels ++ X))
    (hd : Held m t d) :
    Ends (reparentRoot env) t
      (fun _ t' => ∃ n j,
        Rep m t' (.down n before after (.down j [] [] (.top : TPath (H + 2) (H + 2)))) c (d.labels ++ X) ∧
        Held m t' d ∧ t.maxDepth < treeMaxDepth - 1 ∧ t'.maxDepth = t.maxDepth)
      (fun e _ => fails ∨ e = .maxDepth ∧ treeMaxDepth - 1 ≤ t.maxDepth) := by
  have hT := hr.toTop
  unfold reparentRoot
  rw [ends_bind, ends_get]
  by_cases hmax : t.maxDepth ≥ treeMaxDepth - 1
  · rw [if_pos hmax, ends_throw]
    exact .inr ⟨rfl, hmax⟩
  rw [if_neg hmax, ends_bind, ends_top hT.stack, ends_bind, ends_getIb hT.ib]
  refine (hT.alloc hl).seq' (fun n t₁ halloc => ?_) fun _ _ h => .inl h
  obtain ⟨ht₁, hs₁, hn₁, hmax₁⟩ := halloc
  rw [ends_bind, ends_setIb, ends_bind, ends_setCacheDirty]
  -- the new block takes over the entries of the root
  change Ends _ (markDirty (putIb t₁ (.block n)
    (image blockSize (isLarge H) (flatBefore before) (num c) (flatAfter after))) (.block n)) _ _
  have hib₂ := (ibIn_markDirty (t := putIb t₁ (.block n)
    (image blockSize (isLarge H) (flatBefore before) (num c) (flatAfter after))) (.block n)).trans
    (ibIn_putIb_block hn₁ _)
  have ho := (putIb_onlyAt (t := t₁) (.block n) (image blockSize (isLarge H) (flatBefore before) (num c)
    (flatAfter after))).trans (markDirty_onlyAt (.block n))
  set t₂ := markDirty (putIb t₁ (.block n)
    (image blockSize (isLarge H) (flatBefore before) (num c) (flatAfter after))) (.block n)
  obtain ⟨ht₂, hs₂⟩ := ht₁.onlyOther ho
  have hset : setIeVbn (initIb true attrRecordContentSize)
      (initIb true attrRecordContentSize).firstEntryOff n =
        .ok (image attrRecordContentSize true [] n []) := by
    rw [initIb_image]
    exact setIeVbn_image n
  change Ends (fromExcept (setIeVbn (initIb true attrRecordContentSize)
    (initIb true attrRecordContentSize).firstEntryOff n) >>= _) t₂ _ _
  rw [hset, ends_bind, ends_fromExcept_ok, ends_bind, ends_setIb]
  have hput := ht₂.putIb (image attrRecordContentSize true [] n [])
  set t₃ := putIb t₂ (refOf (Path.top : TPath (H + 1) (H + 1)) i) (image attrRecordContentSize true [] n [])
  obtain ⟨ht₃, hs₃⟩ := hput
  rw [ends_bind, ends_codeOf]
  refine (ht₃.dirty hl).mono (fun _ t₄ hdirty => ?_) fun e t₄ h => ?_
  · obtain ⟨j, l, -, ht₄, hs₄, hmax₄⟩ := hdirty
    rw [Path.relabel_top] at ht₄
    have hib₄ : ibIn t₄ (refOf (Path.top : TPath (H + 1) (H + 1)) i) =
      some (image attrRecordContentSize true [] n []) := ht₄.ib
    dsimp only
    rw [ends_bind, ends_getIb hib₄, image_firstEntryOff, ends_bind]
    unfold setPosition
    rw [ends_modify, ends_modify, ht₄.stack]
    have hco : CursorOnly t₄ { t₄ with stack := [⟨.root, cursorAt ([] : List (TNode (H + 1) × KeyValue))⟩] } :=
      setStack_cursorOnly _
    have ht₅ := ht₄.higher.seek hco rfl
    set t₅ : ObjectTree σ :=
      { t₄ with stack := [⟨.root, cursorAt ([] : List (TNode (H + 1) × KeyValue))⟩] }
    have hs : SameOn m t t₄ (Node.labelsBefore before ++ Node.labelsAfter after ++ c.labels ++
        (d.labels ++ X)) := by
      refine ((hs₁.trans hs₂).trans (hs₃.mono ?_)).trans (hs₄.mono ?_)
      all_goals exact fun v hv => List.mem_cons_of_mem n hv
    have hn : ibIn t₄ (.block n) =
        some (image blockSize (isLarge H) (flatBefore before) (num c) (flatAfter after)) := by
      rw [ibIn_block] at hib₂ ⊢
      rw [((hs₃.trans hs₄) n (by simp)).1]
      exact hib₂
    have hplug : Held m t₄ (Node.plug n before c after) := by
      refine held_plug.mpr ⟨blockAt_of_ibIn m hn, fun x hx => (hr.path.2.1 x hx).congr (hs.mono ?_),
        hr.child.congr (hs.mono ?_), fun x hx => (hr.path.2.2.1 x hx).congr (hs.mono ?_)⟩
      · intro v hv
        have := mem_labelsBefore hx hv
        simp [this]
      · intro v hv
        simp [hv]
      · intro v hv
        have := mem_labelsAfter hx hv
        simp [this]
    have hr₅ : Rep m t₅ (.down j [] [] (.top : TPath (H + 2) (H + 2))) (Node.plug n before c after)
        (d.labels ++ X) := by
      refine ht₅.toRep (by simp) (hplug.congr (hco.sameOn _)) (by simp) ?_
      classical
      rw [Node.labels_plug]
      refine List.perm_iff_count.mpr fun x => ?_
      simp only [List.count_append, List.count_cons, Node.labelsBefore_nil, Node.labelsAfter_nil,
        List.count_nil]
      omega
    refine ⟨n, j, hr₅.push hn ⟨rfl, rfl, rfl, rfl⟩ rfl, ?_, by omega, ?_⟩
    · have hd₄ : Held m t₄ d := hd.congr (hs.mono fun v hv => by simp [hv])
      exact hd₄.congr fun v _ => ⟨rfl, rfl⟩
    · exact hmax₄.trans ((putIb_onlyAt _ _).maxDepth.trans (ho.maxDepth.trans hmax₁))
  · split_ifs
    · exact .inl h
    · dsimp only
      rw [ends_bind, ends_modify, ends_throw]
      exact .inl h

/-! ## The round that inserts -/

/-- `insert_ie` and `set_ib_dirty` for an entry that fits. -/
theorem insertFit_spec (hl : LawfulEnv env m fails) (hr : Rep m t (.down i before after up) c (d.labels ++ X))
    (hd : Held m t d) (hie : ie = mkIe (isLarge h) prev (num d) kv)
    (hfits : usedBytes (isLarge h) (before.map Prod.snd ++ after.map Prod.fst) + ieLen (isLarge h) kv ≤
      allocOf up) :
    Ends (do insertInto (refOf up i) ie (cursorAt before); setIbDirty env) t
      (fun _ t' => ∃ j l, Rep m t' (.down j before ((kv, c) :: after) (up.relabel l)) d X ∧
        t'.maxDepth = t.maxDepth)
      (fun _ _ => fails) := by
  have hT := hr.toTop
  have hins : insertIe (image (allocOf up) (isLarge h) (flatBefore before) (num c) (flatAfter after)) ie
      (cursorAt before) = .ok (image (allocOf up) (isLarge h) (flatBefore before) (num d)
        (flatAfter ((kv, c) :: after))) :=
    insertIe_image hie (by rw [tree_image_size]; exact hfits)
  rw [ends_bind, insertInto_spec hT.ib hins]
  have hput := hT.putIb (image (allocOf up) (isLarge h) (flatBefore before) (num d)
    (flatAfter ((kv, c) :: after)))
  set t₁ := putIb t (refOf up i) (image (allocOf up) (isLarge h) (flatBefore before) (num d)
    (flatAfter ((kv, c) :: after)))
  obtain ⟨ht₁, hs₁⟩ := hput
  refine (ht₁.dirty hl).mono (fun _ t₂ hdirty => ?_) fun _ _ h => h
  obtain ⟨j, l, -, ht₂, hs₂, hmax₂⟩ := hdirty
  have hs := hs₁.trans hs₂
  rw [← allocOf_relabel up l] at ht₂
  refine ⟨j, l, ht₂.toRep (fun x hx => (hr.path.2.1 x hx).congr (hs.mono fun v hv => ?_))
    (hd.congr (hs.mono fun v hv => ?_)) (List.forall_mem_cons.mpr ⟨hr.child.congr (hs.mono fun v hv => ?_),
      fun x hx => (hr.path.2.2.1 x hx).congr (hs.mono fun v hv => ?_)⟩) ?_,
    hmax₂.trans (putIb_onlyAt _ _).maxDepth⟩
  · have := mem_labelsBefore hx hv
    simp [this]
  · simp [hv]
  · simp [hv]
  · have := mem_labelsAfter hx hv
    simp [this]
  · classical
    refine List.perm_iff_count.mpr fun x => ?_
    simp only [Node.labelsAfter_cons, List.count_append]
    omega

/-! ## `tree_insert_ie` -/

/-- The cursor is on an entry of a well-formed tree of `H` levels with the entries `l`, of which `k` lie
before it, in a block of height `h` at least. -/
def OnEntry (m : ContainerModel σ) (t : ObjectTree σ) (X : List ℕ) (H h k : ℕ) (l : List KeyValue) : Prop :=
  ∃ (h' i : ℕ) (B : List (TNode h' × KeyValue)) (b : TNode h') (kv : KeyValue) (b' : TNode h')
    (A : List (KeyValue × TNode h')) (q : TPath H (h' + 1)),
    Rep m t (.down i B ((kv, b') :: A) q) b X ∧ PathOk (.down i B ((kv, b') :: A) q) ∧ NodeOk b ∧
    (Path.down i B ((kv, b') :: A) q).left ++ b.elems ++ (Path.down i B ((kv, b') :: A) q).right = l ∧
    (Path.down i B ((kv, b') :: A) q).left.length + b.elems.length = k ∧ h ≤ h'

/-- Where the cursor is after an entry with `n` entries before it was inserted at the cursor
`before c after` with the child `d`: on it if it fits a block of its level, else on an entry that is
neither the new one nor in `d` or `c`. -/
def Lands (before : List (TNode h × KeyValue)) (d : TNode h) (kv : KeyValue) (c : TNode h)
    (after : List (KeyValue × TNode h)) (n k : ℕ) : Prop :=
  if usedBytes (isLarge h) (before.map Prod.snd ++ after.map Prod.fst) + ieLen (isLarge h) kv ≤ blockSize
  then k = n else k + d.elems.length < n ∨ n + 1 + c.elems.length ≤ k

/-- The outcome of `tree_insert_ie` for the entry `kv` with the child `d` at the cursor
`before c after` below `up`: the tree has at most `L` levels. -/
def Inserted (m : ContainerModel σ) (t t' : ObjectTree σ) (L : ℕ) (before : List (TNode h × KeyValue))
    (d : TNode h) (kv : KeyValue) (c : TNode h) (after : List (KeyValue × TNode h)) (up : TPath H (h + 1))
    (X : List ℕ) : Prop :=
  ∃ H' k, H ≤ H' ∧ H' ≤ L ∧ OnEntry m t' X H' h k ((up.left ++ Node.elemsBefore before ++ d.elems) ++
      kv :: (c.elems ++ (Node.elemsAfter after ++ up.right))) ∧
    Lands before d kv c after (up.left ++ Node.elemsBefore before ++ d.elems).length k ∧
    t'.maxDepth = t.maxDepth

theorem OnEntry.mono {h₀ k : ℕ} {l : List KeyValue} (ho : OnEntry m t X H h k l) (hh : h₀ ≤ h) :
    OnEntry m t X H h₀ k l := by
  obtain ⟨h', i, B, b, kv, b', A, q, hr, hp, hb, hl, hk, hle⟩ := ho
  exact ⟨h', i, B, b, kv, b', A, q, hr, hp, hb, hl, hk, hh.trans hle⟩

theorem Inserted.mono {L L' : ℕ} (hins : Inserted m t t' L before d kv c after up X) (hL : L ≤ L') :
    Inserted m t t' L' before d kv c after up X := by
  obtain ⟨H', k, hH, hH', hon⟩ := hins
  exact ⟨H', k, hH, hH'.trans hL, hon⟩

section Rounds

variable (hkv : KeyValueOk kv) (hie : ie = mkIe (isLarge h) prev (num d) kv)

theorem allocOf_le (up : TPath H h) : allocOf up ≤ blockSize := by
  cases up with
  | top => exact (by decide : attrRecordContentSize ≤ blockSize)
  | down => exact le_rfl

include hkv hie in
/-- The test of `tree_insert_ie`. -/
theorem room_iff (hblock : BlockOk (allocOf up) h (before.map Prod.snd ++ after.map Prod.fst)) :
    uint32 ((image (allocOf up) (isLarge h) (flatBefore before) (num c) (flatAfter after)).realSize + ie.len) ≤
        (image (allocOf up) (isLarge h) (flatBefore before) (num c) (flatAfter after)).allocSize ↔
      usedBytes (isLarge h) (before.map Prod.snd ++ after.map Prod.fst) + ieLen (isLarge h) kv ≤ allocOf up := by
  have hlen : ie.len = ieLen (isLarge h) kv := by rw [hie]; rfl
  have hle := (ieLen_le hkv : ieLen (isLarge h) kv ≤ 1297)
  have hfits := hblock.fits
  have halloc := allocOf_le up
  unfold blockSize at halloc
  unfold uint32
  rw [tree_image_size, hlen, image_allocSize, Nat.mod_eq_of_lt (by omega)]

variable (hl : LawfulEnv env m fails) (hr : Rep m t (.down i before after up) c (d.labels ++ X))
  (hd : Held m t d) (hpath : PathOk (.down i before after up)) (hcok : NodeOk c) (hdok : NodeOk d)

include hkv hie hl hr hd hpath hcok

/-- The entry fits the block on top. -/
theorem treeInsertIe_here
    (hfits : usedBytes (isLarge h) (before.map Prod.snd ++ after.map Prod.fst) + ieLen (isLarge h) kv ≤
      allocOf up) (fuel : ℕ) :
    Ends (treeInsertIe env ie (fuel + 1)) t
      (fun _ t' => ∃ j l, Rep m t' (.down j before ((kv, c) :: after) (up.relabel l)) d X ∧
        PathOk (.down j before ((kv, c) :: after) (up.relabel l)) ∧ t'.maxDepth = t.maxDepth)
      (fun _ _ => fails) := by
  obtain ⟨hblock, hbefore, hafter, hup⟩ := hpath
  unfold treeInsertIe
  rw [ends_bind, ends_top hr.stack, ends_bind, ends_getIb hr.topIb, if_pos ((room_iff hkv hie hblock).mpr hfits)]
  refine (insertFit_spec hl hr hd hie hfits).mono (fun _ t' hpost => ?_) fun _ _ h => h
  obtain ⟨j, l, hr', hmax⟩ := hpost
  refine ⟨j, l, hr', ⟨⟨?_, fun kv' hkv' => ?_⟩, hbefore, List.forall_mem_cons.mpr ⟨hcok, hafter⟩,
    hup.relabel l⟩, hmax⟩
  · rw [allocOf_relabel]
    unfold usedBytes at hfits ⊢
    simp only [List.map_cons, sizeOfKvs_append, sizeOfKvs_cons] at hfits ⊢
    omega
  · simp only [List.map_cons, List.mem_append, List.mem_cons] at hkv'
    rcases hkv' with hkv' | rfl | hkv'
    · exact hblock.entries kv' (List.mem_append_left _ hkv')
    · exact hkv
    · exact hblock.entries kv' (List.mem_append_right _ hkv')

include hdok

theorem treeInsertIe_fit
    (hfits : usedBytes (isLarge h) (before.map Prod.snd ++ after.map Prod.fst) + ieLen (isLarge h) kv ≤
      allocOf up) (fuel : ℕ) :
    Ends (treeInsertIe env ie (fuel + 1)) t (fun _ t' => Inserted m t t' H before d kv c after up X)
      (fun _ _ => fails) := by
  refine (treeInsertIe_here hkv hie hl hr hd hpath hcok hfits fuel).mono (fun _ t' hpost => ?_) fun _ _ h => h
  obtain ⟨j, l, hr', hp', hmax⟩ := hpost
  refine ⟨H, _, le_rfl, le_rfl, ⟨h, j, before, d, kv, c, after, up.relabel l, hr', hp', hdok, ?_, rfl, le_rfl⟩,
    ?_, hmax⟩
  · simp [Path.left, Path.right]
  · unfold Lands
    rw [if_pos (hfits.trans (allocOf_le up))]
    simp [Path.left, Nat.add_assoc]

end Rounds

section Levels

variable {i₂ : ℕ} {B₂ : List (TNode (h + 1) × KeyValue)} {A₂ : List (KeyValue × TNode (h + 1))}
  {up₂ : TPath H (h + 2)}

/-- The entry does not fit the block on top, which is not the root: the block is split, and the
middle entry is inserted above. -/
theorem treeInsertIe_split (hkv : KeyValueOk kv) (hie : ie = mkIe (isLarge h) prev (num d) kv)
    (hl : LawfulEnv env m fails)
    (hr : Rep m t (.down i before after (.down i₂ B₂ A₂ up₂)) c (d.labels ++ X)) (hd : Held m t d)
    (hpath : PathOk (.down i before after (.down i₂ B₂ A₂ up₂))) (hcok : NodeOk c) (hdok : NodeOk d)
    (hover : blockSize <
      usedBytes (isLarge h) (before.map Prod.snd ++ after.map Prod.fst) + ieLen (isLarge h) kv)
    {L fuel : ℕ} {F : ErrorCode → ObjectTree σ → Prop} (hF : ∀ e t', fails → F e t')
    (hgo : ∀ t₁ mid left mkv right prev' j l, Halves before d kv c after left mkv right →
      mid = mkIe (isLarge (h + 1)) prev' (num left) mkv →
      Rep m t₁ (.down j B₂ A₂ (up₂.relabel l)) right (left.labels ++ X) → Held m t₁ left →
      PathOk (.down j B₂ A₂ (up₂.relabel l)) → t₁.maxDepth = t.maxDepth →
      Ends (treeInsertIe env mid fuel) t₁
        (fun _ t' => Inserted m t₁ t' L B₂ left mkv right A₂ (up₂.relabel l) X) F) :
    Ends (treeInsertIe env ie (fuel + 1)) t
      (fun _ t' => Inserted m t t' L before d kv c after (.down i₂ B₂ A₂ up₂) X) F := by
  have hdepth : depth t ≠ 0 := by
    unfold depth
    rw [hr.stack]
    simp [frames]
  unfold treeInsertIe
  rw [ends_bind, ends_top hr.stack, ends_bind, ends_getIb hr.topIb, if_neg, ends_bind, ends_get,
    if_neg hdepth, ends_bind, ends_codeOf]
  · refine (splitIb_spec hl hr hd hie hkv hpath hcok hdok hover).mono (fun mid t₁ hsplit => ?_)
      fun e t' h => ?_
    · obtain ⟨left, mkv, right, prev', l, hhalf, hmid, hr₁, hleft, hlen, hmax₁⟩ := hsplit
      obtain ⟨j, l, rfl⟩ : ∃ j l', l = j :: l' := by
        cases l with
        | nil => simp [Path.spine] at hlen
        | cons j l => exact ⟨j, l, rfl⟩
      rw [Path.relabel_down] at hr₁
      refine (hgo t₁ mid left mkv right prev' j l hhalf hmid hr₁ hleft (hpath.2.2.2.relabel (j :: l))
        hmax₁).mono (fun _ t' hins => ?_) fun _ _ h => h
      obtain ⟨H', k, hH, hH', hon, hlands, hmax⟩ := hins
      have hlists : (up₂.relabel l).left ++ Node.elemsBefore B₂ ++ left.elems ++
            mkv :: (right.elems ++ (Node.elemsAfter A₂ ++ (up₂.relabel l).right)) =
          (Path.down i₂ B₂ A₂ up₂).left ++ Node.elemsBefore before ++ d.elems ++
            kv :: (c.elems ++ (Node.elemsAfter after ++ (Path.down i₂ B₂ A₂ up₂).right)) := by
        have := congrArg (fun x => up₂.left ++ Node.elemsBefore B₂ ++ x ++ (Node.elemsAfter A₂ ++ up₂.right))
          hhalf.elems
        simpa [Path.left, Path.right] using this
      rw [hlists] at hon
      refine ⟨H', k, hH, hH', hon.mono (Nat.le_succ h), ?_, hmax.trans hmax₁⟩
      have haside := hhalf.aside
      have hcount := congrArg List.length hhalf.elems
      simp only [List.length_append, List.length_cons] at hcount
      unfold Lands at hlands ⊢
      rw [if_neg (not_le.mpr hover)]
      simp only [Path.left, Path.left_relabel, List.length_append] at hlands ⊢
      split_ifs at hlands <;> omega
    · split_ifs
      · exact hF e t' h
      · exact hF _ t' h
  · rw [room_iff hkv hie hpath.1]
    exact not_le.mpr hover

/-- `tree_insert_ie` below a root without entries. -/
theorem treeInsertIe_below_empty (hkv : KeyValueOk kv) (hie : ie = mkIe (isLarge h) prev (num d) kv)
    (hl : LawfulEnv env m fails)
    (hr : Rep m t (.down i before after (.down i₂ [] [] (.top : TPath (h + 2) (h + 2)))) c (d.labels ++ X))
    (hd : Held m t d) (hpath : PathOk (.down i before after (.down i₂ [] [] (.top : TPath (h + 2) (h + 2)))))
    (hcok : NodeOk c) (hdok : NodeOk d) {fuel : ℕ} (hfuel : 2 ≤ fuel) :
    Ends (treeInsertIe env ie fuel) t
      (fun _ t' => Inserted m t t' (h + 2) before d kv c after (.down i₂ [] [] (.top : TPath (h + 2) (h + 2))) X)
      (fun _ _ => fails) := by
  obtain ⟨fuel, rfl⟩ : ∃ f, fuel = f + 2 := ⟨fuel - 2, by omega⟩
  by_cases hfits : usedBytes (isLarge h) (before.map Prod.snd ++ after.map Prod.fst) + ieLen (isLarge h) kv ≤
      blockSize
  · exact treeInsertIe_fit hkv hie hl hr hd hpath hcok hdok hfits (fuel + 1)
  · refine treeInsertIe_split hkv hie hl hr hd hpath hcok hdok (not_le.mp hfits) (fun _ _ h => h)
      fun t₁ mid left mkv right prev' j l hhalf hmid hr₁ hleft hpath₁ _ => ?_
    rw [Path.relabel_top] at hr₁ hpath₁ ⊢
    refine treeInsertIe_fit hhalf.middle_ok hmid hl hr₁ hleft hpath₁ hhalf.right_ok hhalf.left_ok ?_ fuel
    -- an empty root has room for every entry
    have := (ieLen_le hhalf.middle_ok : ieLen (isLarge (h + 1)) mkv ≤ 1297)
    have hend := endLen_bounds (isLarge (h + 1))
    change usedBytes (isLarge (h + 1)) [] + _ ≤ attrRecordContentSize
    unfold usedBytes attrRecordContentSize indexBlockSize
    rw [sizeOfKvs_nil]
    omega

end Levels

/-- The entries of the root block, if `kvs` are those of the block below the path. -/
def rootEntries : {h : ℕ} → TPath H h → List KeyValue → List KeyValue
  | _, .top, kvs => kvs
  | _, .down _ before after up, _ => rootEntries up (before.map Prod.snd ++ after.map Prod.fst)

@[simp] theorem rootEntries_top (kvs : List KeyValue) : rootEntries (.top : TPath H H) kvs = kvs := rfl

@[simp] theorem rootEntries_down (i : ℕ) (before : List (TNode h × KeyValue)) (after : List (KeyValue × TNode h))
    (up : TPath H (h + 1)) (kvs : List KeyValue) : rootEntries (.down i before after up) kvs =
      rootEntries up (before.map Prod.snd ++ after.map Prod.fst) := rfl

@[simp] theorem rootEntries_relabel (p : TPath H h) (l : List ℕ) (kvs : List KeyValue) :
    rootEntries (p.relabel l) kvs = rootEntries p kvs := by
  induction p generalizing l kvs with
  | top => rw [Path.relabel_top]
  | down i before after up ih =>
    cases l with
    | nil => rw [Path.relabel_nil]
    | cons j l => exact ih l _

/-- `tree_insert_ie`. It fails only when the root has to move, which an empty one never has, and the tree
is as deep as it can be. -/
theorem treeInsertIe_spec (hl : LawfulEnv env m fails) (hH : H ≤ treeMaxDepth) {fuel : ℕ} {h i : ℕ}
    {before : List (TNode h × KeyValue)} {c d : TNode h} {after : List (KeyValue × TNode h)}
    {up : TPath H (h + 1)} (hdepth : H ≤ t.maxDepth + 1)
    (hr : Rep m t (.down i before after up) c (d.labels ++ X)) (hd : Held m t d)
    (hpath : PathOk (.down i before after up)) (hcok : NodeOk c) (hdok : NodeOk d) (hkv : KeyValueOk kv)
    (hie : ie = mkIe (isLarge h) prev (num d) kv) (hfuel : up.spine.length + 3 ≤ fuel) :
    Ends (treeInsertIe env ie fuel) t
      (fun _ t' => Inserted m t t' (min (H + 1) treeMaxDepth) before d kv c after up X)
      (fun e _ => fails ∨ e = .reparent ∧ treeMaxDepth - 1 ≤ t.maxDepth ∧
        rootEntries up (before.map Prod.snd ++ after.map Prod.fst) ≠ []) := by
  induction fuel generalizing t h i kv ie prev with
  | zero => omega
  | succ fuel ih =>
    by_cases hfits : usedBytes (isLarge h) (before.map Prod.snd ++ after.map Prod.fst) + ieLen (isLarge h) kv ≤
        allocOf up
    · exact (treeInsertIe_fit hkv hie hl hr hd hpath hcok hdok hfits fuel).mono
        (fun _ _ h => h.mono (by omega)) fun _ _ h => .inl h
    cases up with
    | top =>
      have hdepth₀ : depth t = 0 := by
        unfold depth
        rw [hr.stack]
        rfl
      have hroot : before.map Prod.snd ++ after.map Prod.fst ≠ [] := by
        intro hnil
        have hsmall := (ieLen_le hkv : ieLen (isLarge h) kv ≤ 1297)
        have hend := endLen_bounds (isLarge h)
        change ¬ usedBytes (isLarge h) _ + _ ≤ attrRecordContentSize at hfits
        rw [hnil] at hfits
        unfold usedBytes attrRecordContentSize indexBlockSize at hfits
        rw [sizeOfKvs_nil] at hfits
        omega
      unfold treeInsertIe
      rw [ends_bind, ends_top hr.stack, ends_bind, ends_getIb hr.topIb, if_neg, ends_bind, ends_get,
        if_pos hdepth₀, ends_bind, ends_codeOf]
      · refine (reparentRoot_spec hl hr hd).mono (fun _ t₁ hpost => ?_) fun e t' h => ?_
        · obtain ⟨n, j, hr₁, hd₁, hlt, hmax₁⟩ := hpost
          have hpath₁ : PathOk (.down n before after (.down j [] [] (.top : TPath (h + 2) (h + 2)))) := by
            obtain ⟨hblock, hbefore, hafter, -⟩ := hpath
            refine ⟨⟨hblock.fits.trans (allocOf_le _), hblock.entries⟩, hbefore, hafter, ⟨?_, by simp⟩,
              by simp, by simp, trivial⟩
            have hend := endLen_bounds (isLarge (h + 1))
            change usedBytes (isLarge (h + 1)) [] ≤ attrRecordContentSize
            unfold usedBytes attrRecordContentSize indexBlockSize
            rw [sizeOfKvs_nil]
            omega
          refine (treeInsertIe_below_empty hkv hie hl hr₁ hd₁ hpath₁ hcok hdok (by omega)).mono
            (fun _ t' hins => ?_) fun _ _ h => .inl h
          obtain ⟨H', k, hle, hle', hon, hlands, hmax⟩ := hins
          exact ⟨H', k, by omega, by omega, by simpa [Path.left, Path.right] using hon,
            by simpa [Path.left] using hlands, hmax.trans hmax₁⟩
        · rcases h with h | ⟨rfl, hmax⟩
          · split_ifs
            · exact .inl h
            · exact .inl h
          · exact .inr ⟨rfl, hmax, hroot⟩
      · rw [room_iff hkv hie hpath.1]
        exact hfits
    | down i₂ B₂ A₂ up₂ =>
      simp only [Path.spine, List.length_cons] at hfuel
      refine treeInsertIe_split hkv hie hl hr hd hpath hcok hdok (not_le.mp hfits) (fun _ _ h => .inl h)
        fun t₁ mid left mkv right prev' j l hhalf hmid hr₁ hleft hpath₁ hmax₁ => ?_
      rw [← hmax₁] at hdepth ⊢
      have hroot := rootEntries_relabel up₂ l (B₂.map Prod.snd ++ A₂.map Prod.fst)
      rw [rootEntries_down, ← hroot]
      refine ih hdepth hr₁ hleft hpath₁ hhalf.right_ok hhalf.left_ok hhalf.middle_ok hmid ?_
      have h1 := (up₂.relabel l).spine_length
      have h2 := up₂.spine_length
      omega

end IndexFs.Tree
