import IndexFs.Avl.Rotation

/-!
# Insertion into an AVL tree

`avl_insert` of `public/avl.c` (lines 492–568) puts a node at the place that a search
has found and goes up from there. Above the new node every balance changes by one, until
a subtree has become even or has been rotated.

Results:

* `insertLoop_spec`: the way up, from any node whose subtree has become one higher.
* `avlInsert_spec`: the new node stands at its place, in a balanced tree.
-/

namespace IndexFs.Avl

open BalancedTree

variable {ι : Type} [DecidableEq ι]

/-! ## Model of the code -/

/-- An `avl_index_t`: a node and which child of it. -/
abbrev AvlIndex (ι : Type) := Option ι × Bool

/-- `avl_child2balance`. -/
def avlChild2balance (child : Bool) : ℤ := sign child

/-- The loop of `avl_insert` (lines 533–562) and the rotation behind it. -/
def insertLoop : (fuel : ℕ) → (parent : Option ι) → (whichChild : Bool) → AvlM ι Unit
  | 0, _, _ => throw .fuel
  | _ + 1, none, _ => return
  | fuel + 1, some node, whichChild => do
    let oldBalance ← avlXbalance node
    let newBalance := oldBalance + avlChild2balance whichChild
    if newBalance = 0 then
      avlSetbalance node 0
    else if oldBalance ≠ 0 then
      let _ ← avlRotation node newBalance
    else
      avlSetbalance node newBalance
      let parent ← avlXparent node
      let whichChild ← avlXchild node
      insertLoop fuel parent whichChild

/-- `avl_insert` up to the loop (lines 502–526): the new node is written and linked to its place. -/
def linkNew (newData : ι) (place : AvlIndex ι) : AvlM ι Unit := do
  modify fun t => { t with numnodes := t.numnodes + 1 }
  setChildAt newData false none
  setChildAt newData true none
  avlSetchild newData place.2
  avlSetbalance newData 0
  avlSetparent newData place.1
  match place.1 with
  | some parent => do
    avlAssert ((← avlChild parent place.2).isNone)
    setChildAt parent place.2 (some newData)
  | none => do
    avlAssert ((← get).root.isNone)
    setRoot (some newData)

/-- `avl_insert` (lines 492–568). -/
def avlInsert (fuel : ℕ) (newData : ι) (place : AvlIndex ι) : AvlM ι Unit := do
  linkNew newData place
  insertLoop fuel place.1 place.2

/-! ## Trees -/

open BinaryTree

/-- The memory holds a balanced tree. -/
structure Holds (t : AvlTree ι) (s : BinaryTree ι) : Prop where
  root : t.root = rootOf s
  linked : Linked t.node none false s
  balanced : IsBalanced s

variable {t t' T : AvlTree ι} {k : ℕ} {c : List (Frame ι)} {f : Frame ι} {x s : BinaryTree ι} {a : ι} {fuel : ℕ} {l l' : List ι}

section

omit [DecidableEq ι]

theorem Within.trans (h : Within l t t') (h' : Within l t' T) : Within l t T where
  node z hz := (h'.node z hz).trans (h.node z hz)
  numnodes := h'.numnodes.trans h.numnodes

theorem Within.mono (h : Within l t t') (hl : ∀ z ∈ l, z ∈ l') : Within l' t t' where
  node z hz := h.node z fun hmem => hz (hl z hmem)
  numnodes := h.numnodes

/-- A subtree of the height that the nodes above expect. -/
theorem Stands.holds (h : Stands t x.height c x) (hc : BalancedAt x.height c) : Holds t (plug c x) where
  root := by
    rw [h.hole.root, rootOf_plug]
  linked := linked_plug.mpr ⟨h.hole.above, h.linked⟩
  balanced := isBalanced_plug.mpr ⟨h.balanced, hc⟩

theorem Holds.stands (h : Holds t (plug c x)) : Stands t x.height c x ∧ BalancedAt x.height c := by
  obtain ⟨habove, hlinked⟩ := linked_plug.mp h.linked
  obtain ⟨hx, hc⟩ := isBalanced_plug.mp h.balanced
  exact ⟨⟨⟨habove, h.root.trans rootOf_plug⟩, hlinked, hx⟩, hc⟩

/-- A node above a position changes places with what is around it. -/
theorem outside_perm : (inorder x ++ outside (f :: c)).Perm (f.label :: (inorder x ++ inorder f.sibling ++ outside c)) := by
  refine (outside_cons_perm.append_left _).trans ?_
  rw [List.cons_append, List.append_assoc]
  exact List.perm_middle

/-- The node above a position and its subtrees, as they have to be for a rotation. -/
theorem Stands.tilted (h : Stands t k (f :: c) x) (hnodup : (inorder x ++ outside (f :: c)).Nodup) :
    Tilted t (max k f.sibling.height + 1) c f.side f.label x f.sibling := by
  obtain ⟨hnear, hfar, hparent, hindex, -, hlinked, habove⟩ := h.hole.above
  exact ⟨⟨habove, h.hole.root⟩, hnear, hfar, hparent, hindex, h.linked, hlinked, outside_perm.nodup_iff.mp hnodup⟩

end

/-- The position moves up by one node, whose balance is set to what it is now. -/
theorem Stands.up (h : Stands t k (f :: c) x) (hnodup : (inorder x ++ outside (f :: c)).Nodup)
    (hx : x.height ≤ f.sibling.height + 1) (hs : f.sibling.height ≤ x.height + 1) (hbal : IsBalanced f.sibling) :
    Stands (t.withBalance f.label (sign f.side * (x.height - f.sibling.height))) (max k f.sibling.height + 1) c
      (branch f.side f.label x f.sibling) := by
  have htilt := h.tilted hnodup
  have hsame : ∀ z, z ≠ f.label →
      (t.withBalance f.label (sign f.side * (x.height - f.sibling.height))).node z = t.node z := by
    intro z hz
    rw [AvlTree.withBalance_node, if_neg hz]
  have hnodup' := htilt.nodup
  simp only [List.append_assoc, List.nodup_cons, List.mem_append, not_or] at hnodup'
  obtain ⟨⟨hax, has, hac⟩, -⟩ := hnodup'
  refine ⟨⟨?_, ?_⟩, ?_, ?_⟩
  · rw [rootOf_branch]
    refine htilt.hole.above.congr fun z hz => hsame z ?_
    rintro rfl
    exact hac hz
  · rw [rootOf_branch]
    exact htilt.hole.root
  · rw [linked_branch, AvlTree.withBalance_node, if_pos rfl]
    refine ⟨htilt.near, htilt.far, htilt.parent, htilt.index, rfl, ?_, ?_⟩
    · refine htilt.linkedNear.congr fun z hz => hsame z ?_
      rintro rfl
      exact hax hz
    · refine htilt.linkedFar.congr fun z hz => hsame z ?_
      rintro rfl
      exact has hz
  · exact isBalanced_branch.mpr ⟨hx, hs, h.balanced, hbal⟩

theorem within_withBalance {v : ℤ} (ha : a ∈ l) : Within l t (t.withBalance a v) where
  node z hz := by
    rw [AvlTree.withBalance_node, if_neg]
    rintro rfl
    exact hz ha
  numnodes := rfl

/-! ## The way up -/

/-- What the loops on the way up leave behind. -/
def Restored (t : AvlTree ι) (c : List (Frame ι)) (x : BinaryTree ι) (T : AvlTree ι) : Prop :=
  Within (inorder x ++ outside c) t T ∧ ∃ y, Holds T y ∧ inorder y = inorder (plug c x)

omit [DecidableEq ι] in
theorem Restored.trans (hw : Within (inorder x ++ outside c) t t') (h : Restored t' c x T) : Restored t c x T :=
  ⟨hw.trans h.1, h.2⟩

/-- From a subtree on that has become one higher, unless it is a new leaf because one of its sides has. -/
theorem insertLoop_spec (h : Stands t k c x) (hc : BalancedAt k c) (hnodup : (inorder x ++ outside c).Nodup)
    (hheight : x.height = k + 1) (hx : x.height = 1 ∨ tilt x ≠ 0) (hfuel : c.length < fuel) :
    Ends (insertLoop fuel (parentOf none c) (indexOf false c)) t (fun _ T => Restored t c x T) (fun _ _ => False) := by
  induction fuel generalizing t c x k with
  | zero => exact absurd hfuel (Nat.not_lt_zero _)
  | succ fuel ih =>
    cases c with
    | nil => exact ⟨⟨fun _ _ => rfl, rfl⟩, x, ⟨h.hole.root, h.linked, h.balanced⟩, rfl⟩
    | cons f c =>
      obtain ⟨hks, hsk, hsib, hup⟩ := hc
      have htilt := h.tilted hnodup
      have hbalance : (t.node f.label).balance = sign f.side * (k - f.sibling.height) := h.hole.above.2.2.2.2.1
      have hmem : f.label ∈ inorder x ++ outside (f :: c) := outside_perm.mem_iff.mpr List.mem_cons_self
      have hnew : sign f.side * (k - f.sibling.height) + avlChild2balance f.side =
          sign f.side * (x.height - f.sibling.height) := by
        unfold avlChild2balance
        rw [hheight]
        push_cast
        ring
      have hup' : x.height ≤ f.sibling.height + 1 → Stands
          (t.withBalance f.label (sign f.side * (x.height - f.sibling.height))) (max k f.sibling.height + 1) c
          (branch f.side f.label x f.sibling) := fun hle => h.up hnodup hle (by omega) hsib
      unfold insertLoop parentOf indexOf
      rw [ends_bind, ends_avlXbalance, hbalance]
      dsimp only
      rw [hnew]
      split_ifs with heven hold
      · -- the subtree has become even, its height is what it was
        have hsame : x.height = f.sibling.height := by
          cases hside : f.side <;> rw [hside] at heven <;> simp only [sign] at heven <;> omega
        have hstands := hup' (by omega)
        rw [heven] at hstands
        have hheights : (branch f.side f.label x f.sibling).height = max k f.sibling.height + 1 := by
          rw [height_branch]
          omega
        rw [← hheights] at hstands hup
        exact ⟨within_withBalance hmem, _, hstands.holds hup, rfl⟩
      · -- it was one higher on this side and is two higher now
        have htwo : x.height = f.sibling.height + 2 := by
          cases hside : f.side <;> rw [hside] at heven hold <;> simp only [sign] at heven hold <;> omega
        have hdouble : sign f.side * ((x.height : ℤ) - f.sibling.height) = 2 * sign f.side := by
          rw [htwo]
          push_cast
          ring
        rw [hdouble]
        refine Ends.bind ((avlRotation_spec htilt h.balanced hsib htwo).mono (fun r T hpost => ?_) fun _ _ => False.elim)
        obtain ⟨hwithin, hr, y, hy, hinorder, hyh⟩ := hpost
        have hshort : r = true := hr.mpr (hx.resolve_left (by omega))
        rw [if_pos hshort, show x.height = max k f.sibling.height + 1 by omega] at hyh
        rw [← hyh] at hy hup
        refine ⟨hwithin.mono fun z => outside_perm.mem_iff.mpr, _, hy.holds hup, ?_⟩
        rw [inorder_plug false, hinorder, ← inorder_plug]
        rfl
      · -- it was even and is one higher on this side now
        have hone : x.height = f.sibling.height + 1 := by
          cases hside : f.side <;> rw [hside] at heven hold <;> simp only [sign] at heven hold <;> omega
        rw [ends_bind, ends_avlSetbalance, ends_bind, ends_avlXparent, ends_bind, ends_avlXchild,
          AvlTree.withBalance_node, if_pos rfl]
        dsimp only
        rw [htilt.parent, htilt.index]
        have hrec := ih (hup' (by omega)) hup (outside_branch_perm.nodup_iff.mpr hnodup) ?_ (.inr ?_) ?_
        · refine hrec.mono (fun _ T hpost => ⟨?_, hpost.2⟩) fun _ _ => id
          exact (within_withBalance hmem).trans (hpost.1.mono fun z => outside_branch_perm.mem_iff.mp)
        · rw [height_branch]
          omega
        · rw [tilt_branch]
          exact heven
        · rw [List.length_cons] at hfuel
          omega

/-! ## Insertion -/

theorem linkNew_nodes {place : AvlIndex ι} (hne : place.1 ≠ some a)
    (hempty : ∀ p, place.1 = some p → (t.node p).child place.2 = none) (hroot : place.1 = none → t.root = none) :
    Ends (linkNew a place) t
      (fun _ T => (∀ z, z ≠ a → T.node z = (t.replaced place.1 place.2 (some a)).node z) ∧
        T.node a = ⟨fun _ => none, place.1, place.2, 0⟩ ∧ T.root = (t.replaced place.1 place.2 (some a)).root ∧
        T.numnodes = t.numnodes + 1)
      (fun _ _ => False) := by
  obtain ⟨q, e⟩ := place
  have hchild : Function.update (Function.update (t.node a).child false none) true none = fun _ => none := by
    funext d
    cases d <;> simp
  unfold linkNew
  simp only [ends_bind, ends_modify, ends_setChildAt, ends_avlSetchild, ends_avlSetbalance, ends_avlSetparent]
  cases q with
  | none =>
    simp only [ends_bind, ends_get]
    rw [ends_avlAssert (by simp [hroot rfl]), ends_setRoot]
    refine ⟨fun z hz => ?_, ?_, rfl, rfl⟩
    · simp [hz]
    · simp [hchild]
  | some p =>
    have hpa : p ≠ a := fun h => hne (congrArg some h)
    simp only [ends_bind, ends_avlChild]
    rw [ends_avlAssert (by simp [hpa, hempty p rfl]), ends_setChildAt]
    refine ⟨fun z hz => ?_, ?_, rfl, rfl⟩
    · simp [hz, @eq_comm _ z p]
    · simp [hchild, Ne.symm hpa]

/-- A new node is put at a free place of a balanced tree. -/
theorem avlInsert_spec (h : Holds t (plug c nil)) (hnodup : (a :: outside c).Nodup) (hfuel : c.length < fuel) :
    Ends (avlInsert fuel a (parentOf none c, indexOf false c)) t
      (fun _ T => (∀ z ∉ a :: outside c, T.node z = t.node z) ∧ T.numnodes = t.numnodes + 1 ∧
        ∃ y, Holds T y ∧ inorder y = inorder (plug c (node a nil nil)))
      (fun _ _ => False) := by
  obtain ⟨hstands, hbal⟩ := h.stands
  obtain ⟨hout, hc⟩ := List.nodup_cons.mp hnodup
  have hne : parentOf none c ≠ some a := fun hp => hout (parentOf_mem hp)
  have hempty : ∀ p, parentOf none c = some p → (t.node p).child (indexOf false c) = none := by
    intro p hp
    cases c with
    | nil => cases hp
    | cons f c =>
      cases hp
      exact hstands.hole.above.1
  have hroot : parentOf none c = none → t.root = none := by
    intro hp
    cases c with
    | nil => exact hstands.hole.root
    | cons f c => cases hp
  unfold avlInsert
  refine (linkNew_nodes hne hempty hroot).seq fun _ t₁ hpost => ?_
  obtain ⟨hother, hnew, hroot₁, hcount⟩ := hpost
  have hleaf : Stands t₁ 0 c (node a nil nil) := by
    refine ⟨hstands.hole.replace hc (fun z hz => hother z ?_) hroot₁, ?_, by simp [IsBalanced]⟩
    · rintro rfl
      exact hout hz
    · unfold Linked
      rw [hnew]
      exact ⟨rfl, rfl, rfl, rfl, rfl, trivial, trivial⟩
  refine (insertLoop_spec hleaf hbal hnodup rfl (.inl rfl) hfuel).mono (fun _ T hpost => ?_) fun _ _ => id
  obtain ⟨hwithin, hy⟩ := hpost
  refine ⟨fun z hz => ?_, hwithin.numnodes.trans hcount, hy⟩
  rw [hwithin.node z hz]
  obtain ⟨hza, hzc⟩ := not_or.mp (List.mem_cons.not.mp hz)
  rw [hother z hza, AvlTree.replaced_node, if_neg]
  exact fun hp => hzc (parentOf_mem hp)

end IndexFs.Avl
