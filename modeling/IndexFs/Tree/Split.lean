import IndexFs.Tree.Top
import IndexFs.Tree.WellFormed

/-!
# `split_ib`

An overfull block below the root is cut at its middle entry: the entries behind it
go to a new block, the middle entry goes up with the old block as its child, and
the pending entry goes into one of the halves.

* `splitIb_run`: the steps of `split_ib` on the state, for given halves.
* `Halves`: what the two blocks and the entry between them are.
* `splitIb_spec`: the halves that the code makes.
-/

namespace IndexFs.Tree

open IndexFs.Multiway

variable {σ : Type} {m : ContainerModel σ} {t t' : ObjectTree σ} {H h : ℕ} {env : TreeEnv σ} {fails : Prop}

theorem ends_popCacheStack {f g : Frame} {fs : List Frame} (h : t.stack = f :: g :: fs)
    {Q : PrevResult → ObjectTree σ → Prop} {F : ErrorCode → ObjectTree σ → Prop} :
    Ends (popCacheStack {} : TreeM σ PrevResult) t Q F ↔ Q .entry { t with stack := g :: fs } := by
  unfold popCacheStack
  rw [ends_bind, ends_get, if_neg (by simp [depth, h]), ends_bind, ends_set, if_neg (by simp),
    ends_pure, h]
  rfl

theorem insertInto_spec {ref : CacheRef} {ib ib' : IndexBlock} {ie : IndexEntry} {pos : ℕ}
    (hib : ibIn t ref = some ib) (hins : insertIe ib ie pos = .ok ib')
    {Q : Unit → ObjectTree σ → Prop} {F : ErrorCode → ObjectTree σ → Prop} :
    Ends (insertInto ref ie pos) t Q F ↔ Q () (putIb t ref ib') := by
  unfold insertInto
  rw [ends_bind, ends_getIb hib, hins, ends_bind, ends_fromExcept_ok, ends_setIb]

theorem mem_labelsBefore {before : List (TNode h × KeyValue)} {x : TNode h × KeyValue} (hx : x ∈ before)
    {v : ℕ} (hv : v ∈ x.1.labels) : v ∈ Node.labelsBefore before := List.mem_flatMap.mpr ⟨x, hx, hv⟩

theorem mem_labelsAfter {after : List (KeyValue × TNode h)} {x : KeyValue × TNode h} (hx : x ∈ after)
    {v : ℕ} (hv : v ∈ x.2.labels) : v ∈ Node.labelsAfter after := List.mem_flatMap.mpr ⟨x, hx, hv⟩

section Run

variable {i : ℕ} {before : List (TNode h × KeyValue)} {c d : TNode h} {after : List (KeyValue × TNode h)}
  {up : TPath H (h + 1)} {L : List ℕ} {ie : IndexEntry} {pos : ℕ}
  {B Bl Br : List (TNode h × KeyValue)} {mch a cl cr : TNode h} {mkv : KeyValue}
  {A Al Ar : List (KeyValue × TNode h)}

/-- The first part of `split_ib`, with the middle entry behind `B` and, with the pending entry, the
block `Br cr Ar` as the new block. -/
theorem splitTail_run (hl : LawfulEnv env m fails)
    (ht : Top m t up i pos
      (image (allocOf up) (isLarge h) (flatBefore B) (num mch) ((mkv, num a) :: flatAfter A)) L)
    (hmid : getMiddleIe
      (image (allocOf up) (isLarge h) (flatBefore B) (num mch) ((mkv, num a) :: flatAfter A)) = cursorAt B)
    (hbehind : ∀ t n, ibIn t (.block n) = some (image (allocOf up) (isLarge h) [] (num a) (flatAfter A)) →
      Ends (insertBehind (cutImage (allocOf up) (isLarge h) (flatBefore B) (num mch) mkv (num a) (flatAfter A))
        ie (cursorAt B) pos n : TreeM σ Unit) t
        (fun _ t' => OnlyAt t t' (.block n) ∧ ibIn t' (.block n) =
          some (image (allocOf up) (isLarge h) (flatBefore Br) (num cr) (flatAfter Ar)))
        fun _ _ => fails) :
    Ends (splitTail env ie) t
      (fun r t' => r.1 = cursorAt B ∧ ∃ j l, l.length = up.spine.length ∧
        Top m t' (up.relabel l) j pos
          (cutImage (allocOf up) (isLarge h) (flatBefore B) (num mch) mkv (num a) (flatAfter A)) (r.2 :: L) ∧
        SameOn m t t' L ∧ t'.maxDepth = t.maxDepth ∧ ibIn t' (.block r.2) =
          some (image (allocOf up) (isLarge h) (flatBefore Br) (num cr) (flatAfter Ar)))
      (fun _ _ => fails) := by
  unfold splitTail
  rw [ends_bind, ends_top ht.stack, ends_bind, ends_getIb ht.ib]
  dsimp only
  rw [hmid]
  refine (ht.alloc hl).seq fun n t₁ halloc => ?_
  obtain ⟨ht₁, hs₁, hn₁, hmax₁⟩ := halloc
  rw [cursorAt, copyIbTail_image, ends_bind, ends_fromExcept_ok, ends_bind, ends_setIb, ends_bind,
    ends_setIb]
  have hput := ht₁.putIb
    (cutImage (allocOf up) (isLarge h) (flatBefore B) (num mch) mkv (num a) (flatAfter A))
  set t₂ := putIb t₁ (refOf up i)
    (cutImage (allocOf up) (isLarge h) (flatBefore B) (num mch) mkv (num a) (flatAfter A))
  obtain ⟨ht₂, hs₂⟩ := hput
  have hn₂ : (t₂.caches n).isSome := by
    rw [(hs₂ n (by simp)).1]
    exact hn₁
  have hother := putIb_onlyAt (t := t₂) (.block n) (image (allocOf up) (isLarge h) [] (num a) (flatAfter A))
  have hib₃ := ibIn_putIb_block hn₂ (image (allocOf up) (isLarge h) [] (num a) (flatAfter A))
  set t₃ := putIb t₂ (.block n) (image (allocOf up) (isLarge h) [] (num a) (flatAfter A))
  -- the new block takes the pending entry if its place is there
  refine (hbehind t₃ n hib₃).seq fun _ t₄ hins => ?_
  obtain ⟨ho₄, hib₄⟩ := hins
  rw [ends_bind, ends_setCacheDirty]
  have ho := (hother.trans ho₄).trans (markDirty_onlyAt (.block n))
  have hib₅ := (ibIn_markDirty (t := t₄) (.block n)).trans hib₄
  set t₅ := markDirty t₄ (.block n)
  obtain ⟨ht₅, hs₅⟩ := ht₂.onlyOther ho
  refine (ht₅.dirty hl).seq fun _ t₆ hdirty => ?_
  obtain ⟨j, l, hlen, ht₆, hs₆, hmax₆⟩ := hdirty
  rw [ends_pure]
  refine ⟨rfl, j, l, hlen, ht₆, ?_, ?_, ?_⟩
  · refine ((hs₁.trans (hs₂.mono ?_)).trans hs₅).trans (hs₆.mono ?_)
    all_goals exact fun v hv => List.mem_cons_of_mem n hv
  · exact hmax₆.trans (ho.maxDepth.trans ((putIb_onlyAt _ _).maxDepth.trans hmax₁))
  · rw [ibIn_block] at hib₅ ⊢
    rw [(hs₆ n (by simp)).1]
    exact hib₅

/-- The second part of `split_ib`, with the block `Bl cl Al` as the old block. -/
theorem splitHead_run {i₂ j n : ℕ} {B₂ : List (TNode (h + 1) × KeyValue)}
    {A₂ : List (KeyValue × TNode (h + 1))} {up₂ : TPath H (h + 2)} {X : List ℕ}
    (ht : Top m t (.down i₂ B₂ A₂ up₂) j pos
      (cutImage blockSize (isLarge h) (flatBefore B) (num mch) mkv (num a) (flatAfter A)) (n :: L))
    (hright : ibIn t (.block n) =
      some (image blockSize (isLarge h) (flatBefore Br) (num cr) (flatAfter Ar)))
    (hahead : ∀ t ref, ibIn t ref = some (image blockSize (isLarge h) (flatBefore B) (num mch) []) →
      Ends (insertAhead ⟨ref, pos⟩ ie (cursorAt B) : TreeM σ Unit) t
        (fun _ t' => OnlyAt t t' ref ∧ ibIn t' ref =
          some (image blockSize (isLarge h) (flatBefore Bl) (num cl) (flatAfter Al)))
        fun _ _ => fails)
    (hl : (∀ x ∈ Bl, Held m t x.1) ∧ Held m t cl ∧ ∀ x ∈ Al, Held m t x.2)
    (hr : (∀ x ∈ Br, Held m t x.1) ∧ Held m t cr ∧ ∀ x ∈ Ar, Held m t x.2)
    (hL : L.Perm (Node.labelsBefore Bl ++ cl.labels ++ Node.labelsAfter Al ++
      (Node.labelsBefore Br ++ cr.labels ++ Node.labelsAfter Ar) ++ X)) :
    Ends (splitHead ie (cursorAt B) n : TreeM σ IndexEntry) t
      (fun mid t' => mid = dumpIeAddVbn
          (mkIe (isLarge h) (lastLen (isLarge h) entrySize (flatBefore B)) (num mch) mkv) j ∧
        Rep m t' (.down i₂ B₂ A₂ up₂) (Node.plug n Br cr Ar) ((Node.plug j Bl cl Al).labels ++ X) ∧
        Held m t' (Node.plug j Bl cl Al) ∧ t'.maxDepth = t.maxDepth)
      (fun _ _ => fails) := by
  have hpath := ht.path
  unfold splitHead
  rw [ends_bind, ends_top ht.stack, ends_bind, ends_getIb ht.ib]
  dsimp only
  rw [cursorAt, getIe_cutImage, ends_bind, ends_fromExcept_ok, ends_bind, ends_cacheVbn ht.path,
    cutIbTail_cutImage, ends_bind, ends_fromExcept_ok, ends_bind, ends_setIb]
  have hput := ht.putIb (image blockSize (isLarge h) (flatBefore B) (num mch) [])
  set t₁ := putIb t (refOf (Path.down i₂ B₂ A₂ up₂) j) (image blockSize (isLarge h) (flatBefore B) (num mch) [])
  obtain ⟨ht₁, hs₁⟩ := hput
  refine (hahead t₁ _ ht₁.ib).seq fun _ t₂ hins => ?_
  obtain ⟨ho₂, hib₂⟩ := hins
  obtain ⟨ht₂, hs₂⟩ := ht₁.onlyAt ho₂ hib₂
  -- up to the block above, whose entry gets the number of the new block
  have hco : CursorOnly t₂ { t₂ with stack := frames (Path.down i₂ B₂ A₂ up₂) } :=
    setStack_cursorOnly (frames (Path.down i₂ B₂ A₂ up₂))
  have hpop := ht₂.pop hco rfl
  have hpath₃ := ht₂.path.congr (hco.sameOn _) hco.rootIb hco.rootVbn
  have hs₃ := hco.sameOn (m := m) (n :: L)
  have hj : ibIn { t₂ with stack := frames (Path.down i₂ B₂ A₂ up₂) } (.block j) =
      some (image blockSize (isLarge h) (flatBefore Bl) (num cl) (flatAfter Al)) :=
    (hco.ibIn _).trans ht₂.ib
  set t₃ : ObjectTree σ := { t₂ with stack := frames (Path.down i₂ B₂ A₂ up₂) }
  rw [ends_bind, ends_popCacheStack ht₂.stack]
  change Ends _ t₃ _ _
  have hset : setIeVbn (image (allocOf up₂) (isLarge (h + 1)) (flatBefore B₂) j (flatAfter A₂))
      (cursorAt B₂) n = .ok (image (allocOf up₂) true (flatBefore B₂) n (flatAfter A₂)) :=
    setIeVbn_image n
  rw [ends_bind, ends_top hpop.stack, ends_bind, ends_setFrameVbn hpop.ib hset, ends_pure]
  have hput₄ := hpop.putIb (image (allocOf up₂) true (flatBefore B₂) n (flatAfter A₂))
  set t₄ := putIb t₃ (refOf up₂ i₂) (image (allocOf up₂) true (flatBefore B₂) n (flatAfter A₂))
  obtain ⟨ht₄, hs₄⟩ := hput₄
  have hs : SameOn m t t₄ (n :: L) := ((hs₁.trans hs₂).trans hs₃).trans (hs₄.mono fun v hv => by
    simp only [List.mem_cons, List.mem_append] at hv ⊢
    tauto)
  have hchild : ∀ k : TNode h, Held m t k → (∀ v ∈ k.labels, v ∈ L) → Held m t₄ k := fun k hk hv =>
    hk.congr (hs.mono fun v hvk => List.mem_cons_of_mem n (hv v hvk))
  have hblock : ∀ v ∈ j :: n :: L, blockAt m t₄ v = blockAt m t₃ v := fun v hv =>
    hs₄.blockAt (by
      simp only [List.mem_cons, List.mem_append] at hv ⊢
      tauto)
  have hmem : ∀ v, v ∈ L ↔ v ∈ _ := fun v => hL.mem_iff
  simp only [List.mem_append] at hmem
  refine ⟨rfl, ht₄.toRep (fun x hx => ?_) ?_ (fun x hx => ?_) ?_, ?_, ?_⟩
  · refine (hpath₃.2.1 x hx).congr (hs₄.mono fun v hv => ?_)
    have := mem_labelsBefore hx hv
    simp [this]
  · refine held_plug.mpr ⟨?_, fun x hx => hchild _ (hr.1 x hx) fun v hv => ?_,
      hchild _ hr.2.1 fun v hv => ?_, fun x hx => hchild _ (hr.2.2 x hx) fun v hv => ?_⟩
    · rw [hs.blockAt (by simp)]
      exact blockAt_of_ibIn m hright
    · have := mem_labelsBefore hx hv
      simp [hmem, this]
    · simp [hmem, hv]
    · have := mem_labelsAfter hx hv
      simp [hmem, this]
  · refine (hpath₃.2.2.1 x hx).congr (hs₄.mono fun v hv => ?_)
    have := mem_labelsAfter hx hv
    simp [this]
  · classical
    rw [Node.labels_plug, Node.labels_plug]
    refine List.perm_iff_count.mpr fun x => ?_
    have := List.perm_iff_count.mp hL x
    simp only [List.count_append, List.count_cons] at this ⊢
    omega
  · refine held_plug.mpr ⟨?_, fun x hx => hchild _ (hl.1 x hx) fun v hv => ?_,
      hchild _ hl.2.1 fun v hv => ?_, fun x hx => hchild _ (hl.2.2 x hx) fun v hv => ?_⟩
    · rw [hblock j (by simp)]
      exact blockAt_of_ibIn m hj
    · have := mem_labelsBefore hx hv
      simp [hmem, this]
    · simp [hmem, hv]
    · have := mem_labelsAfter hx hv
      simp [hmem, this]
  · exact (putIb_onlyAt _ _).maxDepth.trans (ho₂.maxDepth.trans (putIb_onlyAt _ _).maxDepth)

/-- `split_ib` when the middle entry lies behind `B` and the halves, with the pending entry, are the
blocks `Bl cl Al` and `Br cr Ar`. -/
theorem splitIb_run (Bl : List (TNode h × KeyValue)) (cl : TNode h) (Al : List (KeyValue × TNode h))
    (Br : List (TNode h × KeyValue)) (cr : TNode h) (Ar : List (KeyValue × TNode h))
    (hl : LawfulEnv env m fails) {i₂ : ℕ} {B₂ : List (TNode (h + 1) × KeyValue)}
    {A₂ : List (KeyValue × TNode (h + 1))} {up₂ : TPath H (h + 2)} {X : List ℕ}
    (hr : Rep m t (.down i before after (.down i₂ B₂ A₂ up₂)) c (d.labels ++ X)) (hd : Held m t d)
    (hchain : chain B mch ((mkv, a) :: A) = chain before c after)
    (hmid : getMiddleIe (image blockSize (isLarge h) (flatBefore before) (num c) (flatAfter after)) =
      cursorAt B)
    (hbehind : ∀ t n, ibIn t (.block n) = some (image blockSize (isLarge h) [] (num a) (flatAfter A)) →
      Ends (insertBehind (cutImage blockSize (isLarge h) (flatBefore B) (num mch) mkv (num a) (flatAfter A))
        ie (cursorAt B) (cursorAt before) n : TreeM σ Unit) t
        (fun _ t' => OnlyAt t t' (.block n) ∧ ibIn t' (.block n) =
          some (image blockSize (isLarge h) (flatBefore Br) (num cr) (flatAfter Ar)))
        fun _ _ => fails)
    (hahead : ∀ t ref, ibIn t ref = some (image blockSize (isLarge h) (flatBefore B) (num mch) []) →
      Ends (insertAhead ⟨ref, cursorAt before⟩ ie (cursorAt B) : TreeM σ Unit) t
        (fun _ t' => OnlyAt t t' ref ∧ ibIn t' ref =
          some (image blockSize (isLarge h) (flatBefore Bl) (num cl) (flatAfter Al)))
        fun _ _ => fails)
    (hchildren : ∀ p : TNode h → Prop, (∀ x ∈ before, p x.1) → p c → p d → (∀ x ∈ after, p x.2) →
      ((∀ x ∈ Bl, p x.1) ∧ p cl ∧ ∀ x ∈ Al, p x.2) ∧ (∀ x ∈ Br, p x.1) ∧ p cr ∧ ∀ x ∈ Ar, p x.2)
    (hlabels : (Node.labelsBefore before ++ Node.labelsAfter after ++ c.labels ++ d.labels).Perm
      (Node.labelsBefore Bl ++ cl.labels ++ Node.labelsAfter Al ++
        (Node.labelsBefore Br ++ cr.labels ++ Node.labelsAfter Ar))) :
    Ends (splitIb env ie) t
      (fun mid t' => ∃ j n l, l.length = (Path.down i₂ B₂ A₂ up₂).spine.length ∧
        mid = dumpIeAddVbn
          (mkIe (isLarge h) (lastLen (isLarge h) entrySize (flatBefore B)) (num mch) mkv) j ∧
        Rep m t' ((Path.down i₂ B₂ A₂ up₂).relabel l) (Node.plug n Br cr Ar)
          ((Node.plug j Bl cl Al).labels ++ X) ∧
        Held m t' (Node.plug j Bl cl Al) ∧ t'.maxDepth = t.maxDepth)
      (fun _ _ => fails) := by
  have himage : image blockSize (isLarge h) (flatBefore before) (num c) (flatAfter after) =
      image blockSize (isLarge h) (flatBefore B) (num mch) ((mkv, num a) :: flatAfter A) :=
    (image_recut hchain).symm
  have hT := hr.toTop
  change Top m t _ i (cursorAt before) (image blockSize _ _ _ _) _ at hT
  rw [himage] at hT hmid
  unfold splitIb
  refine (splitTail_run hl hT hmid hbehind).seq fun r t₁ htail => ?_
  obtain ⟨mid, n⟩ := r
  obtain ⟨hmid', j, l, hlen, ht₁, hs₁, hmax₁, hright⟩ := htail
  dsimp only at hmid' ht₁ hright ⊢
  subst hmid'
  obtain ⟨i₂', l, rfl⟩ : ∃ i₂' l', l = i₂' :: l' := by
    cases l with
    | nil => simp [Path.spine] at hlen
    | cons x l => exact ⟨x, l, rfl⟩
  rw [Path.relabel_down] at ht₁
  have hheld := hchildren (Held m t₁)
    (fun x hx => (hr.path.2.1 x hx).congr (hs₁.mono fun v hv => by
      have := mem_labelsBefore hx hv
      simp [this]))
    (hr.child.congr (hs₁.mono fun v hv => by simp [hv]))
    (hd.congr (hs₁.mono fun v hv => by simp [hv]))
    (fun x hx => (hr.path.2.2.1 x hx).congr (hs₁.mono fun v hv => by
      have := mem_labelsAfter hx hv
      simp [this]))
  have hL := hlabels.append_right X
  rw [List.append_assoc _ d.labels X] at hL
  refine (splitHead_run ht₁ hright hahead hheld.1 hheld.2 hL).mono (fun mid' t₂ hhead => ?_)
    fun _ _ h => h
  obtain ⟨hmid', hr', hl', hmax'⟩ := hhead
  exact ⟨j, n, i₂' :: l, hlen, hmid', hr', hl', hmax'.trans hmax₁⟩

end Run

/-! ## The halves -/

section Halves

variable {before : List (TNode h × KeyValue)} {c d : TNode h} {after : List (KeyValue × TNode h)}
  {kv : KeyValue} {ie : IndexEntry} {prev : ℕ}
  {B : List (TNode h × KeyValue)} {mch a : TNode h} {mkv : KeyValue} {A : List (KeyValue × TNode h)}

theorem cursorAt_append (l r : List (TNode h × KeyValue)) :
    cursorAt (l ++ r) = cursorAt l + sizeOfKvs (isLarge h) (r.map Prod.snd) := by
  unfold cursorAt
  rw [flatBefore_append, posOf_append, flatBefore_snd]

theorem cursorAt_eq (l : List (TNode h × KeyValue)) :
    cursorAt l = indexBlockSize + sizeOfKvs (isLarge h) (l.map Prod.snd) := by
  unfold cursorAt posOf
  rw [flatBefore_snd]

theorem tree_image_size {alloc : ℕ} : (image alloc (isLarge h) (flatBefore before) (num c)
    (flatAfter after)).realSize = usedBytes (isLarge h) (before.map Prod.snd ++ after.map Prod.fst) := by
  rw [image_usedBytes, flatBefore_snd, flatAfter_fst]

/-- The pending entry goes into the new block. -/
theorem insertBehind_spec (hie : ie = mkIe (isLarge h) prev (num d) kv) {B₂ : List (TNode h × KeyValue)}
    (hbefore : before = B ++ (mch, mkv) :: B₂) (hcut : chain B₂ c after = (a, A))
    (hfits : usedBytes (isLarge h) (A.map Prod.fst) + ieLen (isLarge h) kv ≤ blockSize) {n : ℕ}
    (hib : ibIn t (.block n) = some (image blockSize (isLarge h) [] (num a) (flatAfter A)))
    {F : ErrorCode → ObjectTree σ → Prop} :
    Ends (insertBehind (cutImage blockSize (isLarge h) (flatBefore B) (num mch) mkv (num a) (flatAfter A))
        ie (cursorAt B) (cursorAt before) n : TreeM σ Unit) t
      (fun _ t' => OnlyAt t t' (.block n) ∧ ibIn t' (.block n) =
        some (image blockSize (isLarge h) (flatBefore B₂) (num d) (flatAfter ((kv, c) :: after)))) F := by
  have himage : image blockSize (isLarge h) (flatBefore []) (num a) (flatAfter A) =
      image blockSize (isLarge h) (flatBefore B₂) (num c) (flatAfter after) :=
    image_recut (by rw [hcut]; rfl)
  have hsize := entries_chain B₂ c after
  rw [hcut] at hsize
  rw [flatBefore_nil] at himage
  rw [himage] at hib
  have hpos := ieLen_pos (isLarge h) mkv
  have hcur : cursorAt before = cursorAt B + (ieLen (isLarge h) mkv + sizeOfKvs (isLarge h)
      (B₂.map Prod.snd)) := by
    rw [hbefore, cursorAt_append]
    simp
  have hplace : indexBlockSize + (cursorAt before - cursorAt B) - ieLen (isLarge h) mkv =
      cursorAt B₂ := by
    rw [hcur, cursorAt_eq B₂]
    omega
  have hins : insertIe (image blockSize (isLarge h) (flatBefore B₂) (num c) (flatAfter after)) ie
      (cursorAt B₂) = .ok (image blockSize (isLarge h) (flatBefore B₂) (num d)
        ((kv, num c) :: flatAfter after)) :=
    insertIe_image hie (by rw [tree_image_size, ← hsize]; exact hfits)
  unfold insertBehind
  rw [if_pos (by omega), ends_bind, ends_getIb hib, cursorAt, getIe_cutImage, ends_bind,
    ends_fromExcept_ok, image_firstEntryOff]
  change Ends (insertInto _ _ (indexBlockSize + (cursorAt before - cursorAt B) - ieLen (isLarge h) mkv)) _ _ _
  rw [hplace, insertInto_spec hib hins]
  exact ⟨putIb_onlyAt _ _, ibIn_putIb hib⟩

/-- The pending entry goes into the old block. -/
theorem insertAhead_spec (hie : ie = mkIe (isLarge h) prev (num d) kv) {D : List (TNode h × KeyValue)}
    {D' : List (KeyValue × TNode h)} (hB : B = before ++ D) (hcut : chain D mch [] = (c, D'))
    (hfits : usedBytes (isLarge h) (B.map Prod.snd) + ieLen (isLarge h) kv ≤ blockSize) {ref : CacheRef}
    (hib : ibIn t ref = some (image blockSize (isLarge h) (flatBefore B) (num mch) []))
    {F : ErrorCode → ObjectTree σ → Prop} :
    Ends (insertAhead ⟨ref, cursorAt before⟩ ie (cursorAt B) : TreeM σ Unit) t
      (fun _ t' => OnlyAt t t' ref ∧ ibIn t' ref =
        some (image blockSize (isLarge h) (flatBefore before) (num d) (flatAfter ((kv, c) :: D')))) F := by
  have himage : image blockSize (isLarge h) (flatBefore B) (num mch) (flatAfter []) =
      image blockSize (isLarge h) (flatBefore before) (num c) (flatAfter D') :=
    image_recut (by rw [hB, chain_before_append, hcut])
  have hsize := entries_chain D mch []
  rw [hcut] at hsize
  rw [flatAfter_nil] at himage
  rw [himage] at hib
  have hcur : cursorAt before ≤ cursorAt B := by
    rw [hB, cursorAt_append]
    omega
  have hsum : B.map Prod.snd = before.map Prod.snd ++ D'.map Prod.fst := by
    rw [hB, hsize]
    simp
  have hins : insertIe (image blockSize (isLarge h) (flatBefore before) (num c) (flatAfter D')) ie
      (cursorAt before) = .ok (image blockSize (isLarge h) (flatBefore before) (num d)
        ((kv, num c) :: flatAfter D')) :=
    insertIe_image hie (by rw [tree_image_size, ← hsum]; exact hfits)
  unfold insertAhead
  rw [if_neg (by dsimp only; omega)]
  dsimp only
  rw [insertInto_spec hib hins]
  exact ⟨putIb_onlyAt _ _, ibIn_putIb hib⟩

theorem ieLen_lt {large : Bool} (hkv : KeyValueOk kv) : ieLen large kv < 2 ^ 16 := (ieLen_le hkv).trans_lt (by norm_num)

theorem dumpIeAddVbn_mkIe {large : Bool} {n j : ℕ} (hkv : ieLen true kv < 2 ^ 16) :
    dumpIeAddVbn (mkIe large prev n kv) j = mkIe true prev j kv := by
  have hmod : uint16 (ieLen true kv) = ieLen true kv := Nat.mod_eq_of_lt hkv
  have hlen : (if (mkIe large prev n kv).isNode then (mkIe large prev n kv).len
      else (mkIe large prev n kv).len + vbnSize) = ieLen true kv := by
    cases large with
    | true => rfl
    | false => simp [mkIe, ieLen]
  unfold dumpIeAddVbn
  rw [hlen, hmod]
  rfl

section Cut

variable {i i₂ : ℕ} {B₂ : List (TNode (h + 1) × KeyValue)} {A₂ : List (KeyValue × TNode (h + 1))}
  {up₂ : TPath H (h + 2)} {X : List ℕ}

/-- `split_ib` when the middle entry lies before the cursor. -/
theorem splitIb_behind (hl : LawfulEnv env m fails)
    (hr : Rep m t (.down i before after (.down i₂ B₂ A₂ up₂)) c (d.labels ++ X)) (hd : Held m t d)
    (hie : ie = mkIe (isLarge h) prev (num d) kv) (hchain : chain B mch ((mkv, a) :: A) = chain before c after)
    (hmiddle : getMiddleIe (image blockSize (isLarge h) (flatBefore before) (num c) (flatAfter after)) = cursorAt B)
    (hfits : usedBytes (isLarge h) (A.map Prod.fst) + ieLen (isLarge h) kv ≤ blockSize)
    {Br : List (TNode h × KeyValue)} (hB : before = B ++ (mch, mkv) :: Br) (hcut : chain Br c after = (a, A)) :
    Ends (splitIb env ie) t
      (fun mid t' => ∃ j n l, l.length = (Path.down i₂ B₂ A₂ up₂).spine.length ∧
        mid = dumpIeAddVbn
          (mkIe (isLarge h) (lastLen (isLarge h) entrySize (flatBefore B)) (num mch) mkv) j ∧
        Rep m t' ((Path.down i₂ B₂ A₂ up₂).relabel l) (Node.plug n Br d ((kv, c) :: after))
          ((Node.plug j B mch []).labels ++ X) ∧
        Held m t' (Node.plug j B mch []) ∧ t'.maxDepth = t.maxDepth)
      (fun _ _ => fails) := by
  refine splitIb_run B mch [] Br d ((kv, c) :: after) hl hr hd hchain hmiddle
    (fun t n hib => insertBehind_spec hie hB hcut hfits hib) (fun t ref hib => ?_) (fun p h1 h2 h3 h4 => ?_) ?_
  · unfold insertAhead
    rw [if_pos, ends_pure]
    · exact ⟨.refl, hib⟩
    · have := ieLen_pos (isLarge h) mkv
      dsimp only
      rw [hB, cursorAt_append]
      simp only [List.map_cons, sizeOfKvs_cons]
      omega
  · rw [hB, List.forall_mem_append, List.forall_mem_cons] at h1
    exact ⟨⟨h1.1, h1.2.1, by simp⟩, h1.2.2, h3, List.forall_mem_cons.mpr ⟨h2, h4⟩⟩
  · classical
    rw [hB]
    refine List.perm_iff_count.mpr fun x => ?_
    simp only [Node.labelsBefore_append, Node.labelsBefore_cons, Node.labelsAfter_cons,
      Node.labelsAfter_nil, List.count_append, List.count_nil]
    omega

/-- `split_ib` when the middle entry lies at the cursor or behind it. -/
theorem splitIb_ahead (hl : LawfulEnv env m fails)
    (hr : Rep m t (.down i before after (.down i₂ B₂ A₂ up₂)) c (d.labels ++ X)) (hd : Held m t d)
    (hie : ie = mkIe (isLarge h) prev (num d) kv) (hchain : chain B mch ((mkv, a) :: A) = chain before c after)
    (hmiddle : getMiddleIe (image blockSize (isLarge h) (flatBefore before) (num c) (flatAfter after)) = cursorAt B)
    (hfits : usedBytes (isLarge h) (B.map Prod.snd) + ieLen (isLarge h) kv ≤ blockSize)
    {D : List (TNode h × KeyValue)} {D' : List (KeyValue × TNode h)} (hB : B = before ++ D)
    (hcut : chain D mch [] = (c, D')) (hA : after = D' ++ (mkv, a) :: A) :
    Ends (splitIb env ie) t
      (fun mid t' => ∃ j n l, l.length = (Path.down i₂ B₂ A₂ up₂).spine.length ∧
        mid = dumpIeAddVbn
          (mkIe (isLarge h) (lastLen (isLarge h) entrySize (flatBefore B)) (num mch) mkv) j ∧
        Rep m t' ((Path.down i₂ B₂ A₂ up₂).relabel l) (Node.plug n [] a A)
          ((Node.plug j before d ((kv, c) :: D')).labels ++ X) ∧
        Held m t' (Node.plug j before d ((kv, c) :: D')) ∧ t'.maxDepth = t.maxDepth)
      (fun _ _ => fails) := by
  refine splitIb_run before d ((kv, c) :: D') [] a A hl hr hd hchain hmiddle (fun t n hib => ?_)
    (fun t ref hib => insertAhead_spec hie hB hcut hfits hib) (fun p h1 h2 h3 h4 => ?_) ?_
  · unfold insertBehind
    rw [if_neg, ends_pure]
    · exact ⟨.refl, hib⟩
    · rw [hB, cursorAt_append]
      omega
  · rw [hA, List.forall_mem_append, List.forall_mem_cons] at h4
    exact ⟨⟨h1, h3, List.forall_mem_cons.mpr ⟨h2, h4.1⟩⟩, by simp, h4.2.1, h4.2.2⟩
  · classical
    rw [hA]
    refine List.perm_iff_count.mpr fun x => ?_
    simp only [Node.labelsAfter_append, Node.labelsAfter_cons, Node.labelsBefore_nil,
      List.count_append, List.count_nil]
    omega

end Cut

/-- `left` and `right` are the halves of the block at the cursor with the pending entry `kv`, whose
child is `d`, and `mkv` is the entry between them. That is never the pending one. -/
structure Halves (before : List (TNode h × KeyValue)) (d : TNode h) (kv : KeyValue) (c : TNode h)
    (after : List (KeyValue × TNode h)) (left : TNode (h + 1)) (mkv : KeyValue) (right : TNode (h + 1)) :
    Prop where
  left_ok : NodeOk left
  right_ok : NodeOk right
  middle_ok : KeyValueOk mkv
  elems : left.elems ++ mkv :: right.elems =
    Node.elemsBefore before ++ d.elems ++ kv :: (c.elems ++ Node.elemsAfter after)
  aside : left.elems.length < (Node.elemsBefore before).length ∨
    (Node.elemsBefore before).length + d.elems.length + 1 + c.elems.length ≤ left.elems.length

/-- The middle entry lies before the cursor. -/
theorem Halves.of_behind (hbefore : ∀ x ∈ before, NodeOk x.1) (hc : NodeOk c) (hd : NodeOk d)
    (hafter : ∀ x ∈ after, NodeOk x.2) (hkv : KeyValueOk kv) (hmid : MiddleOk (isLarge h) kv B mkv A)
    {B₂ : List (TNode h × KeyValue)} (hB : before = B ++ (mch, mkv) :: B₂)
    (hcut : chain B₂ c after = (a, A)) (j n : ℕ) :
    Halves before d kv c after (Node.plug j B mch []) mkv (Node.plug n B₂ d ((kv, c) :: after)) := by
  have hA : B₂.map Prod.snd ++ after.map Prod.fst = A.map Prod.fst := by
    rw [← entries_chain B₂ c after, hcut]
  have hA' : ∀ kv' ∈ B₂.map Prod.snd ++ after.map Prod.fst, KeyValueOk kv' := by
    rw [hA]
    intro kv' hkv'
    obtain ⟨x, hx, rfl⟩ := List.mem_map.mp hkv'
    exact hmid.entries.2.2 x hx
  refine ⟨nodeOk_plug.mpr ⟨⟨⟨?_, ?_⟩, fun _ => .inl hmid.left_ne⟩, fun x hx => hbefore x ?_,
    hbefore (mch, mkv) ?_, by simp⟩, nodeOk_plug.mpr ⟨⟨⟨?_, ?_⟩, fun _ => .inr (by simp)⟩, fun x hx =>
    hbefore x ?_, hd, List.forall_mem_cons.mpr ⟨hc, hafter⟩⟩, hmid.entries.2.1, ?_, .inl ?_⟩
  · have := hmid.left_fits
    simp only [List.map_nil, List.append_nil]
    omega
  · intro kv' hkv'
    simp only [List.map_nil, List.append_nil, List.mem_map] at hkv'
    obtain ⟨x, hx, rfl⟩ := hkv'
    exact hmid.entries.1 x hx
  · simp [hB, hx]
  · simp [hB]
  · have := hmid.right_fits
    rw [← hA] at this
    unfold usedBytes at this ⊢
    simp only [List.map_cons, sizeOfKvs_append, sizeOfKvs_cons] at this ⊢
    omega
  · intro kv' hkv'
    simp only [List.map_cons, List.mem_append, List.mem_cons] at hkv' hA'
    rcases hkv' with h | rfl | h
    · exact hA' kv' (.inl h)
    · exact hkv
    · exact hA' kv' (.inr h)
  · simp [hB, hx]
  · simp [Node.elems_plug, hB]
  · simp [Node.elems_plug, hB]

/-- The middle entry lies at the cursor or behind it. -/
theorem Halves.of_ahead (hbefore : ∀ x ∈ before, NodeOk x.1) (hc : NodeOk c) (hd : NodeOk d)
    (hafter : ∀ x ∈ after, NodeOk x.2) (hkv : KeyValueOk kv) (hmid : MiddleOk (isLarge h) kv B mkv A)
    {D : List (TNode h × KeyValue)} {D' : List (KeyValue × TNode h)} (hB : B = before ++ D)
    (hcut : chain D mch [] = (c, D')) (hA : after = D' ++ (mkv, a) :: A) (j n : ℕ) :
    Halves before d kv c after (Node.plug j before d ((kv, c) :: D')) mkv (Node.plug n [] a A) := by
  have hD : D'.map Prod.fst = D.map Prod.snd := by
    have := entries_chain D mch []
    rw [hcut] at this
    simpa using this
  have hB' : before.map Prod.snd ++ D'.map Prod.fst = B.map Prod.snd := by
    rw [hB, hD, List.map_append]
  refine ⟨nodeOk_plug.mpr ⟨⟨⟨?_, ?_⟩, fun _ => .inr (by simp)⟩, hbefore, hd,
    List.forall_mem_cons.mpr ⟨hc, fun x hx => hafter x ?_⟩⟩, nodeOk_plug.mpr ⟨⟨⟨?_, ?_⟩, fun _ => .inr
    hmid.right_ne⟩, by simp, hafter (mkv, a) ?_, fun x hx => hafter x ?_⟩, hmid.entries.2.1, ?_, .inr ?_⟩
  · have := hmid.left_fits
    rw [← hB'] at this
    unfold usedBytes at this ⊢
    simp only [List.map_cons, sizeOfKvs_append, sizeOfKvs_cons] at this ⊢
    omega
  · intro kv' hkv'
    have hmem : kv' ∈ before.map Prod.snd ++ D'.map Prod.fst ∨ kv' = kv := by
      simp only [List.map_cons, List.mem_append, List.mem_cons] at hkv' ⊢
      tauto
    rcases hmem with hmem | rfl
    · rw [hB'] at hmem
      obtain ⟨x, hx, rfl⟩ := List.mem_map.mp hmem
      exact hmid.entries.1 x hx
    · exact hkv
  · simp [hA, hx]
  · have := hmid.right_fits
    simp only [List.map_nil, List.nil_append]
    omega
  · intro kv' hkv'
    simp only [List.map_nil, List.nil_append, List.mem_map] at hkv'
    obtain ⟨x, hx, rfl⟩ := hkv'
    exact hmid.entries.2.2 x hx
  · simp [hA]
  · simp [hA, hx]
  · rw [Node.elems_plug, Node.elems_plug, hA]
    simp
  · simp [Node.elems_plug]
    omega

/-- `split_ib` on a block that has no room for the pending entry. -/
theorem splitIb_spec (hl : LawfulEnv env m fails) {i i₂ : ℕ} {B₂ : List (TNode (h + 1) × KeyValue)}
    {A₂ : List (KeyValue × TNode (h + 1))} {up₂ : TPath H (h + 2)} {X : List ℕ}
    (hr : Rep m t (.down i before after (.down i₂ B₂ A₂ up₂)) c (d.labels ++ X)) (hd : Held m t d)
    (hie : ie = mkIe (isLarge h) prev (num d) kv) (hkv : KeyValueOk kv)
    (hpath : PathOk (.down i before after (.down i₂ B₂ A₂ up₂))) (hcok : NodeOk c) (hdok : NodeOk d)
    (hover : blockSize <
      usedBytes (isLarge h) (before.map Prod.snd ++ after.map Prod.fst) + ieLen (isLarge h) kv) :
    Ends (splitIb env ie) t
      (fun mid t' => ∃ left mkv right prev' l, Halves before d kv c after left mkv right ∧
        mid = mkIe true prev' (num left) mkv ∧
        Rep m t' ((Path.down i₂ B₂ A₂ up₂).relabel l) right (left.labels ++ X) ∧ Held m t' left ∧
        l.length = (Path.down i₂ B₂ A₂ up₂).spine.length ∧ t'.maxDepth = t.maxDepth)
      (fun _ _ => fails) := by
  obtain ⟨hblock, hbefore, hafter, -⟩ := hpath
  obtain ⟨B, mch, mkv, a, A, hchain, hmiddle, hmid⟩ := getMiddleIe_overfull hblock hkv hover
  rcases split_cases hchain with ⟨Br, hB, hcut⟩ | ⟨D, D', hB, hcut, hA⟩
  · refine (splitIb_behind hl hr hd hie hchain hmiddle hmid.right_fits hB hcut).mono
      (fun mid t' hpost => ?_) fun _ _ h => h
    obtain ⟨j, n, l, hlen, rfl, hr', hl', hmax⟩ := hpost
    exact ⟨_, mkv, _, _, l, .of_behind hbefore hcok hdok hafter hkv hmid hB hcut j n,
      dumpIeAddVbn_mkIe (ieLen_lt hmid.entries.2.1), hr', hl', hlen, hmax⟩
  · refine (splitIb_ahead hl hr hd hie hchain hmiddle hmid.left_fits hB hcut hA).mono
      (fun mid t' hpost => ?_) fun _ _ h => h
    obtain ⟨j, n, l, hlen, rfl, hr', hl', hmax⟩ := hpost
    exact ⟨_, mkv, _, _, l, .of_ahead hbefore hcok hdok hafter hkv hmid hB hcut hA j n,
      dumpIeAddVbn_mkIe (ieLen_lt hmid.entries.2.1), hr', hl', hlen, hmax⟩

end Halves

end IndexFs.Tree
