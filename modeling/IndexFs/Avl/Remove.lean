import IndexFs.Avl.Find

/-!
# Removal from an AVL tree

`avl_remove` of `public/avl.c` (lines 685–829). A node with two children first changes
places with its neighbour on the higher side: the neighbour gets its place in the tree
and a local variable `tmp` that of the neighbour. The node that is left to be taken out
has one child at most. Above it every balance changes by one, until a subtree keeps its
height.

Results:

* `removeLoop_spec`: the way up, from any node whose subtree has become one lower.
* `swapNeighbour_spec`: the nodes are linked to the same tree with other labels, also
  where the neighbour is a child of the node.
* `avlRemove_spec`: the node is taken out of the order, the tree stays balanced.
-/

namespace IndexFs.Avl

open BalancedTree

variable {ι : Type} [DecidableEq ι]

/-! ## Model of the code -/

def AvlTree.copied (t : AvlTree ι) (p q : ι) : AvlTree ι := { t with node := Function.update t.node p (t.node q) }

/-- `*p = *q`. -/
def copyNode (p q : ι) : AvlM ι Unit := modify (·.copied p q)

/-- `if (x != NULL) AVL_SETPARENT(x, q)`. -/
def setParentOf (x q : Option ι) : AvlM ι Unit :=
  match x with
  | some p => avlSetparent p q
  | none => pure ()

/-- `node` gets the place of `delete` in the tree, `tmp` that of `node` (lines 735–758). `tmp` is the address of the
local variable. -/
def exchange (left : Bool) (tmp node delete : ι) : AvlM ι Unit := do
  let right := !left
  copyNode tmp node
  copyNode node delete
  if (← avlChild node left) = some node then setChildAt node left (some tmp)
  replaceChild (← avlXparent node) (← avlXchild node) (some node)
  avlSetparent (← deref (← avlChild node left)) (some node)
  avlSetparent (← deref (← avlChild node right)) (some node)
  setChildAt (← deref (← avlXparent tmp)) (← avlXchild tmp) (some tmp)
  let whichChild := (← avlChild tmp true).isSome
  setParentOf (← avlChild tmp whichChild) (some tmp)

/-- A node that has two children changes places with a neighbour (lines 713–759). Gives the node that is to be taken
out. -/
def swapNeighbour (fuel : ℕ) (tmp delete : ι) : AvlM ι ι := do
  if (← avlChild delete false).isSome ∧ (← avlChild delete true).isSome then
    let oldBalance ← avlXbalance delete
    let left ← avlBalance2child (oldBalance + 1)
    let node ← walkDown (!left) fuel (← deref (← avlChild delete left))
    exchange left tmp node delete
    return tmp
  else return delete

/-- A node with one child at most is taken out (lines 766–786). Gives its parent and which child of it it was. -/
def unlink (delete : ι) : AvlM ι (AvlIndex ι) := do
  avlAssert (0 < (← get).numnodes)
  modify fun t => { t with numnodes := t.numnodes - 1 }
  let parent ← avlXparent delete
  let whichChild ← avlXchild delete
  let node := (← avlChild delete false).or (← avlChild delete true)
  adopt node parent whichChild
  replaceChild parent whichChild node
  return (parent, whichChild)

/-- The loop of `avl_remove` (lines 793–828). -/
def removeLoop : (fuel : ℕ) → (parent : Option ι) → (whichChild : Bool) → AvlM ι Unit
  | 0, _, _ => throw .fuel
  | _ + 1, none, _ => return
  | fuel + 1, some p, whichChild => do
    let oldBalance ← avlXbalance p
    let newBalance := oldBalance - avlChild2balance whichChild
    let parent ← avlXparent p
    let whichChild ← avlXchild p
    if oldBalance = 0 then avlSetbalance p newBalance
    else if newBalance = 0 then
      avlSetbalance p newBalance
      removeLoop fuel parent whichChild
    else if ← avlRotation p newBalance then removeLoop fuel parent whichChild
    else return

/-- `avl_remove` (lines 685–829). -/
def avlRemove (fuel : ℕ) (tmp data : ι) : AvlM ι Unit := do
  let delete ← swapNeighbour fuel tmp data
  let place ← unlink delete
  removeLoop fuel place.1 place.2

/-! ## The way up -/

open BinaryTree

variable {t T : AvlTree ι} {k : ℕ} {c : List (Frame ι)} {f : Frame ι} {d : Bool} {a : ι} {x y z s : BinaryTree ι} {fuel : ℕ}

omit [DecidableEq ι] in
/-- The same node, seen from the other side. -/
theorem Tilted.flip (h : Tilted t k c d a x y) : Tilted t k c (!d) a y x where
  hole := h.hole
  near := h.far
  far := by
    rw [Bool.not_not]
    exact h.near
  parent := h.parent
  index := h.index
  linkedNear := h.linkedFar
  linkedFar := by
    rw [Bool.not_not]
    exact h.linkedNear
  nodup := ((List.perm_append_comm.append_right _).cons a).nodup_iff.mp h.nodup

/-- From a subtree on that has become one lower. -/
theorem removeLoop_spec (h : Stands t k c x) (hc : BalancedAt k c) (hnodup : (inorder x ++ outside c).Nodup)
    (hheight : x.height + 1 = k) (hfuel : c.length < fuel) :
    Ends (removeLoop fuel (parentOf none c) (indexOf false c)) t (fun _ T => Restored t c x T) (fun _ _ => False) := by
  induction fuel generalizing t c x k with
  | zero => exact absurd hfuel (Nat.not_lt_zero _)
  | succ fuel ih =>
    cases c with
    | nil => exact ⟨⟨fun _ _ => rfl, rfl⟩, x, ⟨h.hole.root, h.linked, h.balanced⟩, rfl⟩
    | cons f c =>
      obtain ⟨hks, hsk, hsib, hup⟩ := hc
      have htilt := h.tilted hnodup
      have hbalance : (t.node f.label).balance = sign f.side * (k - f.sibling.height) := h.hole.above.2.2.2.2.1
      have hmem : f.label ∈ inorder x ++ outside (f :: c) := outside_perm.mem_iff.mpr List.mem_cons_self
      have hnew : sign f.side * (k - f.sibling.height) - avlChild2balance f.side =
          sign f.side * (x.height - f.sibling.height) := by
        unfold avlChild2balance
        rw [← hheight]
        push_cast
        ring
      have hup' : f.sibling.height ≤ x.height + 1 → Stands
          (t.withBalance f.label (sign f.side * (x.height - f.sibling.height))) (max k f.sibling.height + 1) c
          (branch f.side f.label x f.sibling) := fun hle => h.up hnodup (by omega) hle hsib
      rw [List.length_cons] at hfuel
      unfold removeLoop parentOf indexOf
      rw [ends_bind, ends_avlXbalance, hbalance, ends_bind, ends_avlXparent, ends_bind, ends_avlXchild, htilt.parent,
        htilt.index]
      dsimp only
      rw [hnew]
      split_ifs with hold hzero
      · -- the subtree was even, its height is what it was
        have hsame : k = f.sibling.height := by
          cases hside : f.side <;> rw [hside] at hold <;> simp only [sign] at hold <;> omega
        have hstands := hup' (by omega)
        have hheights : (branch f.side f.label x f.sibling).height = max k f.sibling.height + 1 := by
          rw [height_branch]
          omega
        rw [← hheights] at hstands hup
        exact ⟨within_withBalance hmem, _, hstands.holds hup, rfl⟩
      · -- it was higher on this side and is even now
        have hsame : x.height = f.sibling.height := by
          cases hside : f.side <;> rw [hside] at hzero <;> simp only [sign] at hzero <;> omega
        rw [ends_bind, ends_avlSetbalance]
        refine (ih (hup' (by omega)) hup (outside_branch_perm.nodup_iff.mpr hnodup) ?_ (by omega)).mono
          (fun _ T hpost => ⟨?_, hpost.2⟩) fun _ _ => id
        · rw [height_branch]
          omega
        · exact (within_withBalance hmem).trans (hpost.1.mono fun z => outside_branch_perm.mem_iff.mp)
      · -- it was higher on the other side, which is two higher now
        have htwo : f.sibling.height = x.height + 2 := by
          cases hside : f.side <;> rw [hside] at hold hzero <;> simp only [sign] at hold hzero <;> omega
        have hdouble : sign f.side * ((x.height : ℤ) - f.sibling.height) = 2 * sign (!f.side) := by
          rw [htwo, sign_not]
          push_cast
          ring
        rw [hdouble, ends_bind]
        refine (avlRotation_spec htilt.flip hsib h.balanced htwo).mono (fun r T hpost => ?_) fun _ _ => False.elim
        obtain ⟨hwithin, hr, y, hy, hinorder, hyh⟩ := hpost
        rw [branch_not] at hinorder
        have hwithin' : Within (inorder x ++ outside (f :: c)) t T := by
          refine hwithin.mono fun v hv => outside_perm.mem_iff.mpr ?_
          simp only [List.mem_cons, List.mem_append] at hv ⊢
          tauto
        have horder : inorder (plug c y) = inorder (plug (f :: c) x) := by
          rw [inorder_plug false, hinorder, ← inorder_plug]
          rfl
        cases r with
        | true =>
          rw [if_pos rfl] at hyh
          refine (ih hy hup ?_ (by omega) (by omega)).mono (fun _ T' hpost => ⟨?_, ?_⟩) fun _ _ => id
          · rw [hinorder]
            exact outside_branch_perm.nodup_iff.mpr hnodup
          · refine hwithin'.trans (hpost.1.mono fun v hv => ?_)
            rw [hinorder] at hv
            exact outside_branch_perm.mem_iff.mp hv
          · rw [← horder]
            exact hpost.2
        | false =>
          rw [if_neg Bool.false_ne_true, show f.sibling.height = max k f.sibling.height by omega] at hyh
          rw [← hyh] at hy hup
          exact ⟨hwithin', _, hy.holds hup, horder⟩

/-! ## A node with one child at most -/

theorem unlink_spec (h : Holds t (plug c (branch d a nil z))) (hnodup : (a :: (inorder z ++ outside c)).Nodup)
    (hcount : 0 < t.numnodes) :
    Ends (unlink a) t
      (fun r T => r = (parentOf none c, indexOf false c) ∧ Stands T (z.height + 1) c z ∧
        T.numnodes = t.numnodes - 1 ∧ ∀ v ∉ inorder z ++ outside c, T.node v = t.node v)
      (fun _ _ => False) := by
  obtain ⟨hstands, hbal⟩ := h.stands
  obtain ⟨hnear, hfar, hparent, hindex, -, -, hlz⟩ := linked_branch.mp hstands.linked
  obtain ⟨-, -, -, hz⟩ := isBalanced_branch.mp hstands.balanced
  have hchild : ((t.node a).child false).or ((t.node a).child true) = rootOf z := by
    cases d with
    | false =>
      rw [hnear]
      exact hfar
    | true =>
      rw [hnear]
      show Option.or ((t.node a).child (!true)) none = _
      rw [hfar, Option.or_none]
  have hheight : (branch d a nil z).height = z.height + 1 := by
    rw [height_branch]
    exact congrArg (· + 1) (Nat.zero_max _)
  rw [hheight] at hstands
  simp only [List.nodup_cons, List.nodup_append, List.mem_append, not_or] at hnodup
  obtain ⟨⟨haz, hac⟩, hzn, hcn, hdisj⟩ := hnodup
  unfold unlink
  simp only [ends_bind, ends_get]
  rw [ends_avlAssert hcount]
  simp only [ends_modify, ends_avlXparent, ends_avlXchild, ends_avlChild, ends_adopt, ends_replaceChild, ends_pure]
  rw [hchild, hparent, hindex]
  have hroot : ∀ v, rootOf z = some v → parentOf none c ≠ some v := fun v hv hp =>
    hdisj v (rootOf_mem hv) v (parentOf_mem hp) rfl
  refine ⟨rfl, ⟨hstands.hole.replace hcn (fun v hv => ?_) ?_, ?_, hz⟩, ?_, fun v hv => ?_⟩
  · have hne : rootOf z ≠ some v := fun hr => hdisj v (rootOf_mem hr) v hv rfl
    simp [hne]
  · simp [AvlTree.replaced_root]
  · refine hlz.reparent hzn (fun v hv => ?_) fun v hv hne => ?_
    · simp [hv, hroot v hv]
    · have hp : parentOf none c ≠ some v := fun hp => hdisj v hv v (parentOf_mem hp) rfl
      simp [hne, hp]
  · simp
  · obtain ⟨hvz, hvc⟩ := not_or.mp (List.mem_append.not.mp hv)
    have hne : rootOf z ≠ some v := fun hr => hvz (rootOf_mem hr)
    have hp : parentOf none c ≠ some v := fun hp => hvc (parentOf_mem hp)
    simp [hne, hp]

/-! ## The exchange -/

def AvlTree.reparented (t : AvlTree ι) (x q : Option ι) : AvlTree ι :=
  match x with
  | some p => t.withParent p q
  | none => t

section Exchange

variable {p q : ι} {x r : Option ι} {F : AvlFault → AvlTree ι → Prop} {Q : Unit → AvlTree ι → Prop}

@[simp] theorem ends_copyNode : Ends (copyNode p q) t Q F ↔ Q () (t.copied p q) := Iff.rfl

@[simp] theorem AvlTree.copied_node : (t.copied p q).node a = if a = p then t.node q else t.node a := by
  show Function.update _ _ _ _ = _
  rw [Function.update_apply]

@[simp] theorem ends_setParentOf : Ends (setParentOf x r) t Q F ↔ Q () (t.reparented x r) := by
  cases x <;> exact Iff.rfl

@[simp] theorem AvlTree.reparented_node :
    (t.reparented x r).node a = if x = some a then { t.node a with parent := r } else t.node a := by
  cases x with
  | none => rfl
  | some p =>
    show (t.withParent p r).node a = _
    rw [withParent_node]
    simp only [Option.some.injEq, eq_comm]

@[simp] theorem AvlTree.reparented_root : (t.reparented x r).root = t.root := by cases x <;> rfl
@[simp] theorem AvlTree.reparented_numnodes : (t.reparented x r).numnodes = t.numnodes := by cases x <;> rfl

@[simp] theorem AvlTree.copied_root : (t.copied p q).root = t.root := rfl
@[simp] theorem AvlTree.copied_numnodes : (t.copied p q).numnodes = t.numnodes := rfl

end Exchange

/-- After the exchange `n` stands where `a` did and `tmp` where `n` did. `b` is the way from `a` to `n`, `c` that from the
root to `a`, `y` the other subtree of `a` and `z` the one of `n`. -/
structure Exchanged (t T : AvlTree ι) (d : Bool) (a n tmp : ι) (b c : List (Frame ι)) (y z : BinaryTree ι) : Prop where
  spare : T.node tmp = ⟨(t.node n).child, parentOf (some n) b, indexOf d b, (t.node n).balance⟩
  label : T.node n = { t.node a with child := Function.update (t.node a).child d (topOf (some tmp) b) }
  other : ∀ u, rootOf y = some u → T.node u = { t.node u with parent := some n }
  below : ∀ u, rootOf z = some u → T.node u = { t.node u with parent := some tmp }
  path : ∀ u ∈ outside b, T.node u =
    { t.node u with
      child := if parentOf none b = some u then Function.update (t.node u).child (!d) (some tmp) else (t.node u).child
      parent := if topOf none b = some u then some n else (t.node u).parent }
  above : ∀ u ∈ outside c, T.node u = (t.replaced (parentOf none c) (indexOf false c) (some n)).node u
  rest : ∀ u, u ≠ tmp → u ≠ n → u ∉ outside b → u ∉ outside c → rootOf y ≠ some u → rootOf z ≠ some u →
    T.node u = t.node u
  root : T.root = (t.replaced (parentOf none c) (indexOf false c) (some n)).root
  numnodes : T.numnodes = t.numnodes

section Exchange

variable {n tmp v : ι} {b : List (Frame ι)}

/-- What the nodes say before the exchange. -/
structure Exchangeable (t : AvlTree ι) (d : Bool) (a n tmp : ι) (b c : List (Frame ι)) (y z : BinaryTree ι) : Prop where
  near : (t.node a).child d = topOf (some n) b
  far : (t.node a).child (!d) = rootOf y
  parent : (t.node a).parent = parentOf none c
  index : (t.node a).childIndex = indexOf false c
  inner : (t.node n).child (!d) = none
  outer : (t.node n).child d = rootOf z
  nparent : (t.node n).parent = parentOf (some a) b
  nindex : (t.node n).childIndex = indexOf d b
  side : ∀ f ∈ b, f.side = !d
  nonempty : y ≠ nil
  nodup : (tmp :: a :: n :: (inorder y ++ inorder z ++ outside b ++ outside c)).Nodup

omit [DecidableEq ι] in
theorem Exchangeable.which (h : Exchangeable t d a n tmp b c y z) :
    (t.node n).child ((t.node n).child true).isSome = rootOf z := by
  have hinner := h.inner
  have houter := h.outer
  cases d with
  | false =>
    rw [show (t.node n).child true = none from hinner]
    exact houter
  | true =>
    rw [houter]
    cases hz : rootOf z with
    | none => exact hinner
    | some u => exact houter.trans hz

omit [DecidableEq ι] in
/-- The nodes that the exchange writes are different ones; `v` is the root of the other subtree. -/
theorem Exchangeable.apart (h : Exchangeable t d a n tmp b c y z) (hv : rootOf y = some v) :
    (tmp ≠ n ∧ tmp ≠ a ∧ tmp ≠ v ∧ n ≠ v) ∧
      (parentOf none c ≠ some n ∧ parentOf none c ≠ some tmp ∧ parentOf none c ≠ some v) ∧
      rootOf z ≠ some n ∧ rootOf z ≠ some tmp ∧ rootOf z ≠ some v := by
  have hnodup := h.nodup
  simp only [List.append_assoc, List.nodup_cons, List.nodup_append, List.mem_cons, List.mem_append, not_or] at hnodup
  have hvy := rootOf_mem hv
  refine ⟨⟨?_, ?_, ?_, ?_⟩, ⟨?_, ?_, ?_⟩, ?_, ?_, ?_⟩ <;> grind [parentOf_mem, rootOf_mem]

/-- The nodes after the two copies. -/
theorem copied_copied (htn : tmp ≠ n) (hta : tmp ≠ a) :
    ((t.copied tmp n).copied n a).node n = t.node a ∧ ((t.copied tmp n).copied n a).node tmp = t.node n ∧
      ∀ u, u ≠ n → u ≠ tmp → ((t.copied tmp n).copied n a).node u = t.node u := by
  refine ⟨?_, ?_, fun u hun hut => ?_⟩
  · simp [hta.symm]
  · simp [htn]
  · simp [hun, hut]

/-- The neighbour is a child of the node. -/
theorem exchange_near (h : Exchangeable t d a n tmp [] c y z) :
    Ends (exchange d tmp n a) t (fun _ T => Exchanged t T d a n tmp [] c y z) (fun _ _ => False) := by
  obtain ⟨v, hv⟩ := Option.ne_none_iff_exists'.mp (mt rootOf_eq_none.mp h.nonempty)
  obtain ⟨⟨htn, hta, htv, hnv⟩, ⟨hpn, hpt, hpv⟩, hzn, hzt, hzv⟩ := h.apart hv
  obtain ⟨hcn, hct, hcu⟩ := copied_copied (t := t) htn hta
  have hnodup := h.nodup
  simp only [List.append_assoc, List.nodup_cons, List.nodup_append, List.mem_cons, List.mem_append, not_or] at hnodup
  have hvy := rootOf_mem hv
  have hnear : (t.node a).child d = some n := h.near
  unfold exchange
  simp only [ends_bind, ends_copyNode, ends_avlChild]
  rw [if_pos (by simp [hta.symm, hnear])]
  simp only [ends_bind, ends_setChildAt, ends_avlXparent, ends_avlXchild, ends_replaceChild, ends_avlChild]
  obtain ⟨s, hs⟩ : ∃ s, s = ((t.copied tmp n).copied n a).withChild n d (some tmp) := ⟨_, rfl⟩
  have hsn : s.node n = ⟨Function.update (t.node a).child d (some tmp), parentOf none c, indexOf false c,
      (t.node a).balance⟩ := by
    rw [hs, AvlTree.withChild_node, if_pos rfl, hcn]
    exact AvlNode.ext rfl h.parent h.index rfl
  have hst : s.node tmp = t.node n := by
    rw [hs, AvlTree.withChild_node, if_neg htn, hct]
  have hsu : ∀ u, u ≠ n → u ≠ tmp → s.node u = t.node u := by
    intro u hun hut
    rw [hs, AvlTree.withChild_node, if_neg hun, hcu u hun hut]
  have hroot : s.root = t.root ∧ s.numnodes = t.numnodes := by
    rw [hs]
    exact ⟨rfl, rfl⟩
  rw [← hs, hsn]
  dsimp only
  have hfirst : ((s.replaced (parentOf none c) (indexOf false c) (some n)).node n).child d = some tmp := by
    simp [hpn, hsn]
  rw [hfirst]
  simp only [ends_deref, ends_avlSetparent]
  have hsecond : (((s.replaced (parentOf none c) (indexOf false c) (some n)).withParent tmp (some n)).node n).child (!d) =
      some v := by
    simp [hpn, hsn, htn.symm, h.far, hv]
  rw [hsecond]
  simp only [ends_deref]
  have hnt : (((s.replaced (parentOf none c) (indexOf false c) (some n)).withParent tmp (some n)).withParent v
      (some n)).node tmp = ⟨(t.node n).child, some n, d, (t.node n).balance⟩ := by
    simp [hpt, hst, htv, h.nindex]
  rw [hnt]
  simp only [ends_deref]
  rw [hnt, AvlTree.withChild_node, if_neg htn, hnt]
  dsimp only
  rw [h.which, ends_setParentOf]
  refine ⟨?_, ?_, fun u hu => ?_, fun u hu => ?_, fun u hu => ?_, fun u hu => ?_, fun u hut hun hub huc huy huz => ?_, ?_, ?_⟩
  · simp [hzt, htn, htv, hpt, hst, h.nindex]
  · simp [hzn, hnv, htn.symm, hpn, hsn, h.parent, h.index]
  · rw [hv] at hu
    cases hu
    simp [hzv, hnv.symm, htv.symm, hpv, hsu v hnv.symm htv.symm]
  · have hmem := rootOf_mem hu
    have hpu : parentOf none c ≠ some u := by grind [parentOf_mem]
    have hun : u ≠ n := by grind
    have hut : u ≠ tmp := by grind
    have huv : u ≠ v := by grind
    simp [hu, hun, huv, hut, hpu, hsu u hun hut]
  · cases hu
  · have huz : rootOf z ≠ some u := by grind [rootOf_mem]
    have hun : u ≠ n := by grind
    have hut : u ≠ tmp := by grind
    have huv : u ≠ v := by grind
    simp [huz, hun, huv, hut, hsu u hun hut]
  · have hpu : parentOf none c ≠ some u := fun hp => huc (parentOf_mem hp)
    have huv : u ≠ v := fun he => huy (he ▸ hv)
    simp [huz, hun, huv, hut, hpu, hsu u hun hut]
  · simp [AvlTree.replaced_root, hroot.1]
  · simp [hroot.2]

/-- The neighbour lies further down. -/
theorem exchange_far (h : Exchangeable t d a n tmp (f :: b) c y z) :
    Ends (exchange d tmp n a) t (fun _ T => Exchanged t T d a n tmp (f :: b) c y z) (fun _ _ => False) := by
  obtain ⟨v, hv⟩ := Option.ne_none_iff_exists'.mp (mt rootOf_eq_none.mp h.nonempty)
  obtain ⟨w, hw, hwb⟩ := exists_topOf f b (some n)
  obtain ⟨⟨htn, hta, htv, hnv⟩, ⟨hpn, hpt, hpv⟩, hzn, hzt, hzv⟩ := h.apart hv
  obtain ⟨hcn, hct, hcu⟩ := copied_copied (t := t) htn hta
  have hnodup := h.nodup
  simp only [List.append_assoc, List.nodup_cons, List.nodup_append, List.mem_cons, List.mem_append, not_or] at hnodup
  have hvy := rootOf_mem hv
  have hfb : f.label ∈ outside (f :: b) := outside_cons_perm.mem_iff.mpr List.mem_cons_self
  have htw : tmp ≠ w := by grind
  have htf : tmp ≠ f.label := by grind
  have hnw : n ≠ w := by grind
  have hnf : n ≠ f.label := by grind
  have hvw : v ≠ w := by grind
  have hvf : v ≠ f.label := by grind
  have hpb : ∀ u ∈ outside (f :: b), parentOf none c ≠ some u := by grind [parentOf_mem]
  have hnear : (t.node a).child d = some w := h.near.trans hw
  have hside : f.side = !d := h.side f List.mem_cons_self
  unfold exchange
  simp only [ends_bind, ends_copyNode, ends_avlChild]
  rw [if_neg (by simp [hta.symm, hnear, hnw.symm])]
  simp only [ends_bind, ends_avlXparent, ends_avlXchild, ends_replaceChild, ends_avlChild]
  obtain ⟨s, hs⟩ : ∃ s, s = (t.copied tmp n).copied n a := ⟨_, rfl⟩
  have hsn : s.node n = t.node a := by
    rw [hs, hcn]
  have hst : s.node tmp = t.node n := by
    rw [hs, hct]
  have hsu : ∀ u, u ≠ n → u ≠ tmp → s.node u = t.node u := by
    intro u hun hut
    rw [hs, hcu u hun hut]
  have hroot : s.root = t.root ∧ s.numnodes = t.numnodes := by
    rw [hs]
    exact ⟨rfl, rfl⟩
  rw [← hs, hsn, h.parent, h.index]
  have hfirst : ((s.replaced (parentOf none c) (indexOf false c) (some n)).node n).child d = some w := by
    simp [hpn, hsn, hnear]
  rw [hfirst]
  simp only [ends_deref, ends_avlSetparent]
  have hsecond : (((s.replaced (parentOf none c) (indexOf false c) (some n)).withParent w (some n)).node n).child (!d) =
      some v := by
    simp [hpn, hsn, hnw, h.far, hv]
  rw [hsecond]
  simp only [ends_deref]
  have hnode : t.node n = ⟨(t.node n).child, some f.label, !d, (t.node n).balance⟩ :=
    AvlNode.ext rfl h.nparent (h.nindex.trans hside) rfl
  have hnt : (((s.replaced (parentOf none c) (indexOf false c) (some n)).withParent w (some n)).withParent v
      (some n)).node tmp = ⟨(t.node n).child, some f.label, !d, (t.node n).balance⟩ := by
    simp [hpt, hst, htv, htw, ← hnode]
  rw [hnt]
  simp only [ends_deref]
  rw [hnt, ends_setChildAt, AvlTree.withChild_node, if_neg htf, hnt]
  dsimp only
  rw [h.which, ends_setParentOf]
  have hzb : ∀ u ∈ outside (f :: b), rootOf z ≠ some u := by grind [rootOf_mem]
  refine ⟨?_, ?_, fun u hu => ?_, fun u hu => ?_, fun u hu => ?_, fun u hu => ?_, fun u hut hun hub huc huy huz => ?_, ?_, ?_⟩
  · simp [hzt, htf, htw, htv, hpt, hst, hside, ← hnode]
  · refine Eq.trans (b := t.node a) (by simp [hzn, hnv, hnw, hnf, hpn, hsn]) (AvlNode.ext ?_ rfl rfl rfl)
    show _ = Function.update (t.node a).child d (topOf (some tmp) (f :: b))
    rw [topOf_cons, ← topOf_cons (x := some n), hw, ← hnear, Function.update_eq_self]
  · rw [hv] at hu
    cases hu
    simp [hzv, hpv, hvw, hvf, hsu v hnv.symm htv.symm]
  · have hmem := rootOf_mem hu
    have hpu : parentOf none c ≠ some u := by grind [parentOf_mem]
    have hun : u ≠ n := by grind
    have hut : u ≠ tmp := by grind
    have huv : u ≠ v := by grind
    have huw : u ≠ w := by grind
    have huf : u ≠ f.label := by grind
    simp [hu, huv, huw, huf, hpu, hsu u hun hut]
  · have hun : u ≠ n := by grind
    have hut : u ≠ tmp := by grind
    have huv : u ≠ v := by grind
    have hparent : parentOf none (f :: b) = some u ↔ u = f.label := by
      rw [parentOf_cons, Option.some.injEq, eq_comm]
    have htop : topOf none (f :: b) = some u ↔ u = w := by
      rw [topOf_cons, ← topOf_cons (x := some n), hw, Option.some.injEq, eq_comm]
    simp only [AvlTree.reparented_node, AvlTree.withChild_node, AvlTree.withParent_node, AvlTree.replaced_node,
      if_neg (hzb u hu), if_neg huv, if_neg (hpb u hu), hsu u hun hut, hparent, htop]
    split_ifs <;> rfl
  · have huz : rootOf z ≠ some u := by grind [rootOf_mem]
    have hun : u ≠ n := by grind
    have hut : u ≠ tmp := by grind
    have huv : u ≠ v := by grind
    have huw : u ≠ w := by grind
    have huf : u ≠ f.label := by grind
    simp [huz, huv, huw, huf, hsu u hun hut]
  · have hpu : parentOf none c ≠ some u := fun hp => huc (parentOf_mem hp)
    have huv : u ≠ v := fun he => huy (he ▸ hv)
    have huw : u ≠ w := fun he => hub (he ▸ hwb)
    have huf : u ≠ f.label := fun he => hub (he ▸ hfb)
    simp [huz, huv, huw, huf, hpu, hsu u hun hut]
  · simp [AvlTree.replaced_root, hroot.1]
  · simp [hroot.2]

/-! ### The tree after it -/

omit [DecidableEq ι] in
theorem exchange_perm : (inorder (plug c (branch d a (plug b (branch (!d) n nil z)) y))).Perm
    (a :: n :: (inorder y ++ inorder z ++ outside b ++ outside c)) := by
  have hwhole : (inorder (branch d a (plug b (branch (!d) n nil z)) y) ++ outside c).Perm
      (a :: (inorder (plug b (branch (!d) n nil z)) ++ inorder y ++ outside c)) := inorder_branch_perm.append_right _
  have hlow : (inorder (plug b (branch (!d) n nil z))).Perm (n :: (inorder z ++ outside b)) :=
    inorder_plug_perm.trans (inorder_branch_perm.append_right _)
  refine inorder_plug_perm.trans (hwhole.trans (.cons a ?_))
  refine ((hlow.append_right _).append_right _).trans (.cons n (List.Perm.append_right _ ?_))
  rw [List.append_assoc (inorder y)]
  exact List.perm_append_comm

omit [DecidableEq ι] in
theorem exchangeable (h : Holds t (plug c (branch d a (plug b (branch (!d) n nil z)) y))) (hside : ∀ f ∈ b, f.side = !d)
    (hy : y ≠ nil) (hnodup : (tmp :: a :: n :: (inorder y ++ inorder z ++ outside b ++ outside c)).Nodup) :
    Exchangeable t d a n tmp b c y z := by
  obtain ⟨hstands, -⟩ := h.stands
  obtain ⟨hnear, hfar, hparent, hindex, -, hlx, -⟩ := linked_branch.mp hstands.linked
  obtain ⟨hinner, houter, hnparent, hnindex, -⟩ := linked_branch.mp (linked_plug.mp hlx).2
  rw [rootOf_plug, rootOf_branch] at hnear
  rw [Bool.not_not] at houter
  exact ⟨hnear, hfar, hparent, hindex, hinner, houter, hnparent, hnindex, hside, hy, hnodup⟩

/-- The subtree in which the neighbour was. -/
theorem Exchanged.linkedNear (hx : Exchanged t T d a n tmp b c y z)
    (h : Linked t.node (some a) d (plug b (branch (!d) n nil z))) (hside : ∀ f ∈ b, f.side = !d)
    (hnodup : (tmp :: a :: n :: (inorder y ++ inorder z ++ outside b ++ outside c)).Nodup) :
    Linked T.node (some n) d (plug b (branch (!d) tmp nil z)) := by
  obtain ⟨hpath, hlow⟩ := linked_plug.mp h
  obtain ⟨hinner, houter, -, -, hbalance, -, hlz⟩ := linked_branch.mp hlow
  simp only [List.append_assoc, List.nodup_cons, List.nodup_append, List.mem_cons, List.mem_append, not_or] at hnodup
  have hb : (outside b).Nodup := by grind
  have hz : (inorder z).Nodup := by grind
  have hheight : (branch (!d) tmp nil z).height = (branch (!d) n nil z).height := by rw [height_branch, height_branch]
  refine linked_plug.mpr ⟨?_, linked_branch.mpr ?_⟩
  · -- first the topmost node gets its parent, then the one above `tmp` gets its child
    rw [hheight, rootOf_branch]
    rw [rootOf_branch] at hpath
    obtain ⟨m, hm⟩ : ∃ m : ι → AvlNode ι, ∀ u,
        m u = { t.node u with parent := if topOf none b = some u then some n else (t.node u).parent } :=
      ⟨_, fun _ => rfl⟩
    have hreparent : Above m (some n) d (branch (!d) n nil z).height (some n) b :=
      hpath.reparent hb (fun u hu => by rw [hm, if_pos hu]) fun u _ hu => by rw [hm, if_neg hu]
    refine hreparent.redirect hb (fun u hu => ?_) fun u hu hne => ?_
    · have hindex : indexOf false b = !d := by
        cases b with
        | nil => cases hu
        | cons f b => exact hside f List.mem_cons_self
      rw [hx.path u (parentOf_mem hu), hm, if_pos hu, hindex]
    · rw [hx.path u hu, hm, if_neg hne]
  · rw [hx.spare]
    refine ⟨hinner, houter, rfl, rfl, hbalance, trivial, hlz.reparent hz (fun u hu => ?_) fun u hu hne => ?_⟩
    · rw [hx.below u hu]
      exact ⟨rfl, rfl, hlz.childIndex hu, rfl⟩
    · exact hx.rest u (by grind) (by grind) (by grind) (by grind) (by grind [rootOf_mem]) hne

/-- The neighbour has the place of the node and `tmp` that of the neighbour. -/
theorem Exchanged.holds (hx : Exchanged t T d a n tmp b c y z)
    (h : Holds t (plug c (branch d a (plug b (branch (!d) n nil z)) y))) (hside : ∀ f ∈ b, f.side = !d)
    (hnodup : (tmp :: a :: n :: (inorder y ++ inorder z ++ outside b ++ outside c)).Nodup) :
    Holds T (plug c (branch d n (plug b (branch (!d) tmp nil z)) y)) := by
  obtain ⟨hstands, hbal⟩ := h.stands
  obtain ⟨-, hfar, hparent, hindex, hbalance, hlx, hly⟩ := linked_branch.mp hstands.linked
  obtain ⟨hxy, hyx, hbx, hby⟩ := isBalanced_branch.mp hstands.balanced
  obtain ⟨hbn, hbb⟩ := isBalanced_plug.mp hbx
  have hlow : (branch (!d) tmp nil z).height = (branch (!d) n nil z).height := by rw [height_branch, height_branch]
  have hnear : (plug b (branch (!d) tmp nil z)).height = (plug b (branch (!d) n nil z)).height := by
    rw [height_plug, height_plug, hlow]
  have hwhole : (branch d n (plug b (branch (!d) tmp nil z)) y).height =
      (branch d a (plug b (branch (!d) n nil z)) y).height := by
    rw [height_branch, height_branch, hnear]
  rw [← hlow] at hbb
  rw [← hnear] at hxy hyx hbalance
  rw [← hwhole] at hstands hbal
  have hlinked := hx.linkedNear hlx hside hnodup
  simp only [List.append_assoc, List.nodup_cons, List.nodup_append, List.mem_cons, List.mem_append, not_or] at hnodup
  have hc : (outside c).Nodup := by grind
  have hyn : (inorder y).Nodup := by grind
  refine Stands.holds ⟨?_, linked_branch.mpr ?_, ?_⟩ hbal
  · rw [rootOf_branch]
    have hhole := hstands.hole
    rw [rootOf_branch] at hhole
    exact hhole.replace hc hx.above hx.root
  · rw [hx.label]
    refine ⟨?_, ?_, hparent, hindex, hbalance, hlinked, hly.reparent hyn (fun u hu => ?_) fun u hu hne => ?_⟩
    · rw [rootOf_plug, rootOf_branch]
      exact Function.update_self _ _ _
    · exact (Function.update_of_ne (Bool.not_ne_self d) _ _).trans hfar
    · rw [hx.other u hu]
      exact ⟨rfl, rfl, hly.childIndex hu, rfl⟩
    · exact hx.rest u (by grind) (by grind) (by grind) (by grind) hne (by grind [rootOf_mem])
  · exact isBalanced_branch.mpr ⟨hxy, hyx, isBalanced_plug.mpr ⟨isBalanced_branch.mpr (isBalanced_branch.mp hbn), hbb⟩, hby⟩

end Exchange

/-! ## Removal -/

section Removal

variable {n tmp r : ι} {b : List (Frame ι)}

/-- A node is to be taken out: it has one child at most, and the order without it is the one of `s` without `a`. -/
structure Removable (t T : AvlTree ι) (s : BinaryTree ι) (a tmp r : ι) (c : List (Frame ι)) (d : Bool) (z : BinaryTree ι) :
    Prop where
  holds : Holds T (plug c (branch d r nil z))
  height : (plug c (branch d r nil z)).height = s.height
  nodup : (r :: (inorder z ++ outside c)).Nodup
  order : ∃ l l', inorder s = l ++ a :: l' ∧ inorder (plug c z) = l ++ l'
  within : ∀ v ∈ inorder z ++ outside c, v ∈ inorder s
  numnodes : T.numnodes = t.numnodes
  rest : ∀ v ∉ tmp :: inorder s, T.node v = t.node v

omit [DecidableEq ι] in
/-- Without a node that has one child at most. -/
theorem order_branch : ∃ l l', inorder (plug c (branch d a nil z)) = l ++ a :: l' ∧ inorder (plug c z) = l ++ l' := by
  rw [inorder_plug d, inorder_plug d, inorder_branch]
  cases d with
  | false => exact ⟨beyond false c, inorder z ++ beyond true c, by simp [along, inorder], by simp [along]⟩
  | true => exact ⟨beyond false c ++ inorder z, beyond true c, by simp [along, inorder], by simp [along]⟩

omit [DecidableEq ι] in
/-- Without a node that its neighbour has taken the place of. -/
theorem order_exchange (hside : ∀ f ∈ b, f.side = !d) :
    ∃ l l', inorder (plug c (branch d a (plug b (branch (!d) n nil z)) y)) = l ++ a :: l' ∧
      inorder (plug c (branch d n (plug b z) y)) = l ++ l' := by
  have hnear : inorder (plug b (branch (!d) n nil z)) = along d (inorder (plug b z)) [n] := by
    rw [inorder_plug (!d), inorder_plug (!d), beyond_spine hside, inorder_branch, inorder]
    simp only [nil_along, along_not, Bool.not_not, along_assoc]
  rw [inorder_plug d, inorder_plug d, inorder_branch, inorder_branch, hnear]
  cases d with
  | false =>
    exact ⟨beyond false c ++ (inorder (plug b z) ++ [n]), inorder y ++ beyond true c, by simp [along], by simp [along]⟩
  | true =>
    exact ⟨beyond false c ++ inorder y, n :: (inorder (plug b z) ++ beyond true c), by simp [along], by simp [along]⟩

/-- A node with two children. -/
theorem exchange_spec (h : Holds t (plug c (branch d a x y))) (hx : x ≠ nil) (hy : y ≠ nil)
    (hnodup : (tmp :: inorder (plug c (branch d a x y))).Nodup) (hfuel : x.height ≤ fuel) :
    Ends (do
      let node ← walkDown (!d) fuel (← deref (← avlChild a d))
      exchange d tmp node a
      return tmp) t
      (fun r T => ∃ c' d' z, Removable t T (plug c (branch d a x y)) a tmp r c' d' z) (fun _ _ => False) := by
  obtain ⟨v, hv⟩ := Option.ne_none_iff_exists'.mp (mt rootOf_eq_none.mp hx)
  obtain ⟨hstands, -⟩ := h.stands
  obtain ⟨hnear, -, -, -, -, hlx, -⟩ := linked_branch.mp hstands.linked
  rw [ends_bind, ends_avlChild, hnear, hv, ends_bind, ends_deref]
  refine (walkDown_spec hlx hv hfuel).seq fun n t' hpost => ?_
  obtain ⟨rfl, b, z, rfl, hside⟩ := hpost
  have hperm := exchange_perm (c := c) (d := d) (a := a) (b := b) (n := n) (z := z) (y := y)
  have hnodup' := (hperm.cons tmp).nodup_iff.mp hnodup
  have hex := exchangeable h hside hy hnodup'
  have hexchange : Ends (exchange d tmp n a) t' (fun _ T => Exchanged t' T d a n tmp b c y z) (fun _ _ => False) := by
    cases b with
    | nil => exact exchange_near hex
    | cons f b => exact exchange_far hex
  refine hexchange.seq fun _ T hT => ?_
  have hperm' : (tmp :: (inorder z ++ outside (b ++ ⟨d, n, y⟩ :: c))).Perm
      (n :: tmp :: (inorder y ++ inorder z ++ outside b ++ outside c)) := by
    have hbranch : (inorder (branch (!d) tmp nil z) ++ outside (b ++ ⟨d, n, y⟩ :: c)).Perm
        (tmp :: (inorder z ++ outside (b ++ ⟨d, n, y⟩ :: c))) := inorder_branch_perm.append_right _
    refine hbranch.symm.trans (inorder_plug_perm.symm.trans ?_)
    rw [plug_append]
    exact exchange_perm
  refine ⟨b ++ ⟨d, n, y⟩ :: c, !d, z, ?_, ?_, ?_, ?_, fun v hv => ?_, hT.numnodes, fun v hv => ?_⟩
  · rw [plug_append]
    exact hT.holds h hside hnodup'
  · rw [plug_append]
    show (plug c (branch d n (plug b (branch (!d) tmp nil z)) y)).height = _
    simp only [height_plug, height_branch]
  · refine hperm'.nodup_iff.mpr ((List.Perm.swap tmp n _).nodup_iff.mpr ?_)
    exact hnodup'.sublist ((List.sublist_cons_self a _).cons_cons tmp)
  · rw [plug_append]
    exact order_exchange hside
  · have hmem := hperm'.mem_iff.mp (List.mem_cons_of_mem tmp hv)
    have hne : v ≠ tmp := by
      rintro rfl
      have hn := hperm'.nodup_iff.mpr ((List.Perm.swap v n _).nodup_iff.mpr
        (hnodup'.sublist ((List.sublist_cons_self a _).cons_cons v)))
      exact (List.nodup_cons.mp hn).1 hv
    rw [hperm.mem_iff]
    simp only [List.mem_cons] at hmem ⊢
    tauto
  · rw [List.mem_cons, hperm.mem_iff] at hv
    simp only [List.mem_cons, List.mem_append, not_or] at hv
    obtain ⟨hvt, -, hvn, ⟨⟨hvy, hvz⟩, hvb⟩, hvc⟩ := hv
    exact hT.rest v hvt hvn hvb hvc (fun hr => hvy (rootOf_mem hr)) fun hr => hvz (rootOf_mem hr)

theorem swapNeighbour_spec (h : Holds t s) (ha : a ∈ inorder s) (hnodup : (tmp :: inorder s).Nodup)
    (hfuel : s.height ≤ fuel) :
    Ends (swapNeighbour fuel tmp a) t (fun r T => ∃ c d z, Removable t T s a tmp r c d z) (fun _ _ => False) := by
  obtain ⟨c, x, y, rfl⟩ := exists_plug ha
  obtain ⟨hstands, -⟩ := h.stands
  obtain ⟨hx, hy, -, -, hbalance, -⟩ := hstands.linked
  obtain ⟨hxy, hyx, -⟩ := hstands.balanced
  have hlength : c.length + (node a x y).height ≤ (plug c (node a x y)).height := length_le_height
  have hheight : (node a x y).height = max x.height y.height + 1 := rfl
  have hleaf : ∀ (d : Bool) (z : BinaryTree ι), node a x y = branch d a nil z →
      ∃ c' d' z, Removable t t (plug c (node a x y)) a tmp a c' d' z := by
    intro d z heq
    rw [heq] at h hnodup ⊢
    have hperm : (inorder (plug c (branch d a nil z))).Perm (a :: (inorder z ++ outside c)) :=
      inorder_plug_perm.trans (inorder_branch_perm.append_right _)
    refine ⟨c, d, z, h, rfl, ?_, order_branch, fun v hv => ?_, rfl, fun _ _ => rfl⟩
    · exact hperm.nodup_iff.mp (List.nodup_cons.mp hnodup).2
    · exact hperm.mem_iff.mpr (List.mem_cons_of_mem a hv)
  unfold swapNeighbour
  rw [ends_bind, ends_avlChild, ends_bind, ends_avlChild, hx, hy]
  by_cases hxn : x = nil
  · rw [if_neg (by simp [hxn, rootOf])]
    exact hleaf false y (by rw [hxn]; rfl)
  by_cases hyn : y = nil
  · rw [if_neg (by simp [hyn, rootOf])]
    exact hleaf true x (by rw [hyn]; rfl)
  have hsome : ∀ {u : BinaryTree ι}, u ≠ nil → (rootOf u).isSome := by
    intro u hu
    rw [Option.isSome_iff_ne_none]
    exact mt rootOf_eq_none.mp hu
  rw [if_pos ⟨hsome hxn, hsome hyn⟩, ends_bind, ends_avlXbalance, hbalance]
  obtain hbal | hbal | hbal : (y.height : ℤ) - x.height = -1 ∨ (y.height : ℤ) - x.height = 0 ∨
      (y.height : ℤ) - x.height = 1 := by omega
  · rw [hbal]
    exact exchange_spec (d := false) h hxn hyn hnodup (by omega)
  · rw [hbal]
    exact exchange_spec (d := false) h hxn hyn hnodup (by omega)
  · rw [hbal]
    exact exchange_spec (d := true) h hyn hxn hnodup (by omega)

/-- A node is taken out of a balanced tree. `tmp` is no node of it. -/
theorem avlRemove_spec (h : Holds t s) (ha : a ∈ inorder s) (hnodup : (tmp :: inorder s).Nodup) (hcount : 0 < t.numnodes)
    (hfuel : s.height < fuel) :
    Ends (avlRemove fuel tmp a) t
      (fun _ T => (∀ v ∉ tmp :: inorder s, T.node v = t.node v) ∧ T.numnodes = t.numnodes - 1 ∧
        ∃ y, Holds T y ∧ inorder y = (inorder s).erase a)
      (fun _ _ => False) := by
  unfold avlRemove
  refine (swapNeighbour_spec h ha hnodup hfuel.le).seq fun r t₁ hpost => ?_
  obtain ⟨c, d, z, hr⟩ := hpost
  obtain ⟨l, l', hs, hz⟩ := hr.order
  have hlength : c.length + (branch d r nil z).height ≤ (plug c (branch d r nil z)).height := length_le_height
  have hheight : (branch d r nil z).height = z.height + 1 := by
    rw [height_branch]
    exact congrArg (· + 1) (Nat.zero_max _)
  have hbal := hr.holds.stands.2
  rw [hheight] at hbal
  refine (unlink_spec hr.holds hr.nodup (hr.numnodes ▸ hcount)).seq fun p t₂ hpost => ?_
  obtain ⟨rfl, hstands, hcount₂, hrest₂⟩ := hpost
  have hhigh := hr.height
  refine (removeLoop_spec hstands hbal (List.nodup_cons.mp hr.nodup).2 rfl (by omega)).mono (fun _ T hpost => ?_)
    fun _ _ => id
  obtain ⟨hwithin, y, hy, horder⟩ := hpost
  refine ⟨fun v hv => ?_, ?_, y, hy, ?_⟩
  · have hout : v ∉ inorder z ++ outside c := fun hv' => hv (List.mem_cons_of_mem tmp (hr.within v hv'))
    rw [hwithin.node v hout, hrest₂ v hout, hr.rest v hv]
  · rw [hwithin.numnodes, hcount₂, hr.numnodes]
  · have hal : a ∉ l := by
      have hn := (List.nodup_cons.mp hnodup).2
      rw [hs] at hn
      exact fun hl => (List.nodup_append.mp hn).2.2 a hl a List.mem_cons_self rfl
    rw [horder, hz, hs, List.erase_append_right _ hal, List.erase_cons_head]

end Removal

end IndexFs.Avl
