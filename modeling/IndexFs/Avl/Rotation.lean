import IndexFs.Avl.Nodes

/-!
# Rotations of an AVL tree

`avl_rotation` of `public/avl.c` (lines 313–479) restores the balance at a node with a
subtree that is two higher than the other one. The code is written for one side; which
one it is follows from the sign of the balance.

Results:

* `avlRotation_spec`: the nodes end up linked to a balanced tree with the same order, no
  pointer is followed that is `NULL`, and the result says whether the height went down.
-/

namespace IndexFs.Avl

open BalancedTree BinaryTree

variable {ι : Type} [DecidableEq ι]

/-! ## Model of the code -/

/-- `if (x != NULL) { AVL_SETPARENT(x, q); AVL_SETCHILD(x, d); }`. -/
def adopt (x : Option ι) (q : Option ι) (d : Bool) : AvlM ι Unit :=
  match x with
  | some p => do
    avlSetparent p q
    avlSetchild p d
  | none => pure ()

/-- `if (parent != NULL) parent->avl_child[which_child] = x; else tree->avl_root = x;`. -/
def replaceChild (parent : Option ι) (whichChild : Bool) (x : Option ι) : AvlM ι Unit :=
  match parent with
  | some p => setChildAt p whichChild x
  | none => setRoot x

/-- `avl_rotation` (lines 313–479). -/
def avlRotation (node : ι) (balance : ℤ) : AvlM ι Bool := do
  let left := !decide (balance < 0)
  let right := !left
  let leftHeavy := balance >>> 1
  let rightHeavy := -leftHeavy
  let parent ← avlXparent node
  let child ← deref (← avlChild node left)
  let whichChild ← avlXchild node
  let childBal ← avlXbalance child
  if childBal ≠ rightHeavy then
    let childBal := childBal + rightHeavy
    let cright ← avlChild child right
    setChildAt node left cright
    adopt cright (some node) left
    setChildAt child right (some node)
    avlSetbalance node (-childBal)
    avlSetchild node right
    avlSetparent node (some child)
    avlSetbalance child childBal
    avlSetchild child whichChild
    avlSetparent child parent
    replaceChild parent whichChild (some child)
    return childBal = 0
  else
    let gchild ← deref (← avlChild child right)
    let gleft ← avlChild gchild left
    let gright ← avlChild gchild right
    setChildAt node left gright
    adopt gright (some node) left
    setChildAt child right gleft
    adopt gleft (some child) right
    let balance ← avlXbalance gchild
    setChildAt gchild left (some child)
    avlSetbalance child (if balance = rightHeavy then leftHeavy else 0)
    avlSetparent child (some gchild)
    avlSetchild child left
    setChildAt gchild right (some node)
    avlSetbalance node (if balance = leftHeavy then rightHeavy else 0)
    avlSetparent node (some gchild)
    avlSetchild node right
    avlSetbalance gchild 0
    avlSetparent gchild parent
    avlSetchild gchild whichChild
    replaceChild parent whichChild (some gchild)
    return true

namespace AvlTree

def adopted (t : AvlTree ι) (x q : Option ι) (d : Bool) : AvlTree ι :=
  match x with
  | some p => (t.withParent p q).withIndex p d
  | none => t

def replaced (t : AvlTree ι) (parent : Option ι) (d : Bool) (x : Option ι) : AvlTree ι :=
  match parent with
  | some p => t.withChild p d x
  | none => { t with root := x }

variable {t : AvlTree ι} {x q : Option ι} {d : Bool} {a : ι}

@[simp] theorem adopted_root : (t.adopted x q d).root = t.root := by cases x <;> rfl
@[simp] theorem adopted_numnodes : (t.adopted x q d).numnodes = t.numnodes := by cases x <;> rfl
@[simp] theorem replaced_numnodes : (t.replaced q d x).numnodes = t.numnodes := by cases q <;> rfl

@[simp] theorem adopted_node : (t.adopted x q d).node a =
    if x = some a then { t.node a with parent := q, childIndex := d } else t.node a := by
  cases x with
  | none => rfl
  | some p =>
    show ((t.withParent p q).withIndex p d).node a = _
    rw [withIndex_node, withParent_node]
    by_cases h : a = p
    · rw [if_pos h, if_pos h, if_pos (congrArg some h.symm)]
    · rw [if_neg h, if_neg h, if_neg fun heq => h (Option.some.inj heq).symm]

theorem adopted_balance : ((t.adopted x q d).node a).balance = (t.node a).balance := by
  rw [adopted_node]
  split_ifs <;> rfl

@[simp] theorem replaced_node : (t.replaced q d x).node a =
    if q = some a then { t.node a with child := Function.update (t.node a).child d x } else t.node a := by
  cases q with
  | none => rfl
  | some p =>
    show (t.withChild p d x).node a = _
    rw [withChild_node]
    by_cases h : a = p
    · rw [if_pos h, if_pos (congrArg some h.symm)]
    · rw [if_neg h, if_neg fun heq => h (Option.some.inj heq).symm]

theorem replaced_root : (t.replaced q d x).root = if q = none then x else t.root := by
  cases q <;> rfl

end AvlTree

section Steps

variable {t : AvlTree ι} {x q : Option ι} {d : Bool} {F : AvlFault → AvlTree ι → Prop} {Q : Unit → AvlTree ι → Prop}

@[simp] theorem ends_adopt : Ends (adopt x q d) t Q F ↔ Q () (t.adopted x q d) := by
  cases x <;> exact Iff.rfl

@[simp] theorem ends_replaceChild : Ends (replaceChild q d x) t Q F ↔ Q () (t.replaced q d x) := by
  cases q <;> exact Iff.rfl

end Steps

/-! ## One position -/

/-- The nodes above a position, as if there were a tree of height `k` with the root `x`. -/
structure Hole (t : AvlTree ι) (k : ℕ) (x : Option ι) (c : List (Frame ι)) : Prop where
  above : Above t.node none false k x c
  root : t.root = topOf x c

variable {t t' : AvlTree ι} {k : ℕ} {x : Option ι} {c : List (Frame ι)} {d : Bool} {a b g : ι} {l m r s : BinaryTree ι}

omit [DecidableEq ι] in
theorem Hole.congr (h : Hole t k x c) (hm : ∀ a ∈ outside c, t'.node a = t.node a) (hroot : t'.root = t.root) :
    Hole t' k x c :=
  ⟨h.above.congr hm, hroot.trans h.root⟩

theorem Hole.replace (h : Hole t k x c) (hc : (outside c).Nodup) {y : Option ι}
    (hm : ∀ z ∈ outside c, t'.node z = (t.replaced (parentOf none c) (indexOf false c) y).node z)
    (hroot : t'.root = (t.replaced (parentOf none c) (indexOf false c) y).root) : Hole t' k y c := by
  refine ⟨h.above.redirect hc (fun z hz => ?_) fun z hz hne => ?_, ?_⟩
  · rw [hm z (parentOf_mem hz), AvlTree.replaced_node, if_pos hz]
  · rw [hm z hz, AvlTree.replaced_node, if_neg hne]
  · rw [hroot, AvlTree.replaced_root]
    exact topOf_eq h.root y

/-- A node below a position, ready for a rotation towards `!d`: `x` and `y` are its subtrees on the side `d` and on the
other one. Its balance is not fixed. -/
structure Tilted (t : AvlTree ι) (k : ℕ) (c : List (Frame ι)) (d : Bool) (a : ι) (x y : BinaryTree ι) : Prop where
  hole : Hole t k (some a) c
  near : (t.node a).child d = rootOf x
  far : (t.node a).child (!d) = rootOf y
  parent : (t.node a).parent = parentOf none c
  index : (t.node a).childIndex = indexOf false c
  linkedNear : Linked t.node (some a) d x
  linkedFar : Linked t.node (some a) (!d) y
  nodup : (a :: (inorder x ++ inorder y ++ outside c)).Nodup

omit [DecidableEq ι] in
theorem Tilted.parent_ne {x y : BinaryTree ι} (h : Tilted t k c d a x y) {z : ι} (hz : z ∉ outside c) :
    (t.node a).parent ≠ some z :=
  fun hp => hz (parentOf_mem (h.parent.symm.trans hp))

theorem sign_arith (d : Bool) : (!decide (2 * sign d < 0)) = d ∧ (2 * sign d) >>> 1 = sign d := by
  cases d <;> decide

/-! ## The single rotation -/

/-- What the single rotation does to the nodes `a`, `b` above it and to the subtree between them, whose root is `y`. -/
structure SingleRotated (t T : AvlTree ι) (d : Bool) (a b : ι) (y q : Option ι) (e : Bool) (v : ℤ) : Prop where
  other : ∀ z, z ≠ a → z ≠ b → y ≠ some z → T.node z = (t.replaced q e (some b)).node z
  first : T.node a = ⟨Function.update (t.node a).child d y, some b, !d, -v⟩
  second : T.node b = ⟨Function.update (t.node b).child (!d) (some a), q, e, v⟩
  moved : ∀ z, y = some z → T.node z = { t.node z with parent := some a, childIndex := d }
  root : T.root = (t.replaced q e (some b)).root
  numnodes : T.numnodes = t.numnodes

theorem avlRotation_single_nodes {y : Option ι} (hchild : (t.node a).child d = some b)
    (hother : (t.node b).child (!d) = y) (hlean : (t.node b).balance ≠ -sign d) (hab : a ≠ b) (hya : y ≠ some a)
    (hyb : y ≠ some b) (hpa : (t.node a).parent ≠ some a) (hpb : (t.node a).parent ≠ some b)
    (hpy : ∀ z, y = some z → (t.node a).parent ≠ some z) :
    Ends (avlRotation a (2 * sign d)) t
      (fun r T => r = decide ((t.node b).balance = sign d) ∧
        SingleRotated t T d a b y (t.node a).parent (t.node a).childIndex ((t.node b).balance - sign d))
      (fun _ _ => False) := by
  unfold avlRotation
  simp only [sign_arith, ends_bind, ends_avlXparent, ends_avlChild, ends_deref, hchild, ends_avlXchild, ends_avlXbalance]
  rw [if_pos hlean]
  simp only [ends_bind, ends_avlChild, ends_setChildAt, ends_adopt, ends_avlSetbalance, ends_avlSetchild, ends_avlSetparent,
    ends_replaceChild, ends_pure, hother]
  rw [← sub_eq_add_neg]
  refine ⟨decide_eq_decide.mpr sub_eq_zero, ⟨fun z hza hzb hzy => ?_, ?_, ?_, fun z hz => ?_, ?_, ?_⟩⟩
  · simp [hza, hzb, hzy]
  · simp [hab, hya, hpa]
  · simp [hyb, hpb, Ne.symm hab]
  · have hza : z ≠ a := by
      rintro rfl
      exact hya hz
    have hzb : z ≠ b := by
      rintro rfl
      exact hyb hz
    simp [hz, hza, hzb, hpy z hz]
  · simp [AvlTree.replaced_root]
  · simp

/-- The rotated nodes are linked to the rotated tree. -/
theorem SingleRotated.linked {T : AvlTree ι} {v : ℤ}
    (hr : SingleRotated t T d a b (rootOf m) (parentOf none c) (indexOf false c) v)
    (h : Tilted t k c d a (branch d b l m) s) (hl : l.height = s.height + 1) (hv : v = sign d * (s.height - m.height))
    (hm : m.height = s.height ∨ m.height = s.height + 1) :
    Hole T k (some b) c ∧ Linked T.node (parentOf none c) (indexOf false c) (branch d b l (branch (!d) a s m)) := by
  have hnodup : (a :: (b :: (inorder l ++ inorder m)) ++ inorder s ++ outside c).Nodup :=
    (((inorder_branch_perm.append_right _).append_right _).cons a).nodup_iff.mp h.nodup
  simp only [List.cons_append, List.append_assoc, List.nodup_cons, List.nodup_append, List.mem_cons, List.mem_append,
    not_or] at hnodup
  obtain ⟨hbl, -, -, -, -, hll, hlm⟩ := linked_branch.mp h.linkedNear
  have hkeep : ∀ z ∈ inorder l ++ inorder m ++ inorder s, rootOf m ≠ some z → T.node z = t.node z := by
    intro z hz hroot
    rw [hr.other z (by grind) (by grind) hroot, AvlTree.replaced_node, if_neg (by grind [parentOf_mem])]
  have hl' := hll.congr fun z hz => hkeep z (by grind) (by grind [rootOf_mem])
  have hs' := h.linkedFar.congr fun z hz => hkeep z (by grind) (by grind [rootOf_mem])
  have hm' : Linked T.node (some a) d m := by
    refine hlm.reparent (by grind) (fun z hz => ?_) fun z hz => hkeep z (by grind)
    rw [hr.moved z hz]
    exact ⟨rfl, rfl, rfl, rfl⟩
  constructor
  · refine h.hole.replace (by grind) (fun z hz => hr.other z ?_ ?_ ?_) hr.root
    · grind
    · grind
    · grind [rootOf_mem]
  · have hup : (max s.height m.height : ℤ) = m.height := by omega
    rw [linked_branch, rootOf_branch, linked_branch, hr.first, hr.second, height_branch, Bool.not_not, sign_not, hv]
    refine ⟨?_, ?_, rfl, rfl, ?_, hl', ?_, ?_, rfl, rfl, ?_, hs', hm'⟩
    · simp [hbl]
    · simp
    · push_cast
      rw [hup, hl]
      push_cast
      ring
    · simp [h.far]
    · simp
    · ring

/-! ## The double rotation -/

/-- What the double rotation does to `a`, to its child `b`, to the child `g` of `b` and to the subtrees of `g`, whose
roots are `x` and `y`. -/
structure DoubleRotated (t T : AvlTree ι) (d : Bool) (a b g : ι) (x y q : Option ι) (e : Bool) : Prop where
  other : ∀ z, z ≠ a → z ≠ b → z ≠ g → x ≠ some z → y ≠ some z → T.node z = (t.replaced q e (some g)).node z
  first : T.node a =
    ⟨Function.update (t.node a).child d y, some g, !d, if (t.node g).balance = sign d then -sign d else 0⟩
  second : T.node b =
    ⟨Function.update (t.node b).child (!d) x, some g, d, if (t.node g).balance = -sign d then sign d else 0⟩
  third : T.node g = ⟨Function.update (Function.update (t.node g).child d (some b)) (!d) (some a), q, e, 0⟩
  movedNear : ∀ z, x = some z → T.node z = { t.node z with parent := some b, childIndex := !d }
  movedFar : ∀ z, y = some z → T.node z = { t.node z with parent := some a, childIndex := d }
  root : T.root = (t.replaced q e (some g)).root
  numnodes : T.numnodes = t.numnodes

theorem avlRotation_double_nodes {x y : Option ι} (hchild : (t.node a).child d = some b)
    (hother : (t.node b).child (!d) = some g) (hx : (t.node g).child d = x) (hy : (t.node g).child (!d) = y)
    (hlean : (t.node b).balance = -sign d) (hab : a ≠ b) (hag : a ≠ g) (hbg : b ≠ g)
    (hxs : ∀ z, x = some z → z ≠ a ∧ z ≠ b ∧ z ≠ g ∧ y ≠ some z ∧ (t.node a).parent ≠ some z)
    (hys : ∀ z, y = some z → z ≠ a ∧ z ≠ b ∧ z ≠ g ∧ (t.node a).parent ≠ some z)
    (hp : (t.node a).parent ≠ some a ∧ (t.node a).parent ≠ some b ∧ (t.node a).parent ≠ some g) :
    Ends (avlRotation a (2 * sign d)) t
      (fun r T => r = true ∧ DoubleRotated t T d a b g x y (t.node a).parent (t.node a).childIndex)
      (fun _ _ => False) := by
  unfold avlRotation
  simp only [sign_arith, ends_bind, ends_avlXparent, ends_avlChild, ends_deref, hchild, ends_avlXchild, ends_avlXbalance]
  rw [if_neg (not_not.mpr hlean)]
  simp only [ends_bind, ends_avlChild, hother, ends_deref, ends_setChildAt, ends_adopt, ends_avlXbalance,
    ends_avlSetbalance, ends_avlSetchild, ends_avlSetparent, ends_replaceChild, ends_pure, hx, hy,
    AvlTree.adopted_balance, AvlTree.withChild_balance]
  obtain ⟨hpa, hpb, hpg⟩ := hp
  refine ⟨trivial, ⟨fun z hza hzb hzg hzx hzy => ?_, ?_, ?_, ?_, fun z hz => ?_, fun z hz => ?_, ?_, ?_⟩⟩
  · simp [hza, hzb, hzg, hzx, hzy]
  · have hxa : x ≠ some a := fun h => (hxs a h).1 rfl
    have hya : y ≠ some a := fun h => (hys a h).1 rfl
    simp [hab, hag, hxa, hya, hpa]
  · have hxb : x ≠ some b := fun h => (hxs b h).2.1 rfl
    have hyb : y ≠ some b := fun h => (hys b h).2.1 rfl
    simp [Ne.symm hab, hbg, hxb, hyb, hpb]
  · have hxg : x ≠ some g := fun h => (hxs g h).2.2.1 rfl
    have hyg : y ≠ some g := fun h => (hys g h).2.2.1 rfl
    simp [Ne.symm hag, Ne.symm hbg, hxg, hyg, hpg]
  · obtain ⟨hza, hzb, hzg, hzy, hzp⟩ := hxs z hz
    simp [hz, hza, hzb, hzg, hzy, hzp]
  · obtain ⟨hza, hzb, hzg, hzp⟩ := hys z hz
    have hzx : x ≠ some z := fun h => (hxs z h).2.2.2.1 hz
    simp [hz, hza, hzb, hzg, hzx, hzp]
  · simp [AvlTree.replaced_root]
  · simp

/-- The rotated nodes are linked to the rotated tree. -/
theorem DoubleRotated.linked {T : AvlTree ι}
    (hr : DoubleRotated t T d a b g (rootOf m) (rootOf r) (parentOf none c) (indexOf false c))
    (h : Tilted t k c d a (branch d b l (branch (!d) g r m)) s) (hl : l.height = s.height)
    (hm : m.height ≤ s.height) (hrs : r.height ≤ s.height) (heither : m.height = s.height ∨ r.height = s.height)
    (hmr : m.height ≤ r.height + 1 ∧ r.height ≤ m.height + 1) :
    Hole T k (some g) c ∧
      Linked T.node (parentOf none c) (indexOf false c) (branch d g (branch d b l m) (branch (!d) a s r)) := by
  have hnodup : (a :: (b :: (inorder l ++ (g :: (inorder r ++ inorder m)))) ++ inorder s ++ outside c).Nodup :=
    ((((inorder_branch_perm.trans ((inorder_branch_perm.append_left _).cons b)).append_right _).append_right _).cons
      a).nodup_iff.mp h.nodup
  simp only [List.cons_append, List.append_assoc, List.nodup_cons, List.nodup_append, List.mem_cons, List.mem_append,
    not_or] at hnodup
  obtain ⟨hbl, hbg, -, -, -, hll, hlg⟩ := linked_branch.mp h.linkedNear
  obtain ⟨hgr, hgm, -, -, hgb, hlr, hlm⟩ := linked_branch.mp hlg
  have hkeep : ∀ z ∈ inorder l ++ inorder m ++ inorder r ++ inorder s, rootOf m ≠ some z → rootOf r ≠ some z →
      T.node z = t.node z := by
    intro z hz hzm hzr
    rw [hr.other z (by grind) (by grind) (by grind) hzm hzr, AvlTree.replaced_node, if_neg (by grind [parentOf_mem])]
  have hl' := hll.congr fun z hz => hkeep z (by grind) (by grind [rootOf_mem]) (by grind [rootOf_mem])
  have hs' := h.linkedFar.congr fun z hz => hkeep z (by grind) (by grind [rootOf_mem]) (by grind [rootOf_mem])
  have hm' : Linked T.node (some b) (!d) m := by
    refine hlm.reparent (by grind) (fun z hz => ?_) fun z hz hne => hkeep z (by grind) hne (by grind [rootOf_mem])
    rw [hr.movedNear z hz]
    exact ⟨rfl, rfl, rfl, rfl⟩
  have hr' : Linked T.node (some a) d r := by
    refine hlr.reparent (by grind) (fun z hz => ?_) fun z hz hne => hkeep z (by grind) (by grind [rootOf_mem]) hne
    rw [hr.movedFar z hz]
    exact ⟨rfl, rfl, rfl, rfl⟩
  constructor
  · refine h.hole.replace (by grind) (fun z hz => hr.other z ?_ ?_ ?_ ?_ ?_) hr.root
    · grind
    · grind
    · grind
    · grind [rootOf_mem]
    · grind [rootOf_mem]
  · rw [linked_branch, rootOf_branch, rootOf_branch, linked_branch, linked_branch, hr.first, hr.second, hr.third,
      height_branch, height_branch, Bool.not_not, sign_not, hgb, sign_not]
    refine ⟨?_, ?_, rfl, rfl, ?_, ⟨?_, ?_, rfl, rfl, ?_, hl', hm'⟩, ?_, ?_, rfl, rfl, ?_, hs', hr'⟩
    · simp
    · simp
    · rw [hl, max_eq_left hm, max_eq_left hrs, sub_self, mul_zero]
    · simp [hbl]
    · simp
    · rw [hl]
      cases d <;> simp only [sign] <;> split_ifs <;> omega
    · simp [h.far]
    · simp
    · cases d <;> simp only [sign] <;> split_ifs <;> omega

/-! ## Either rotation -/

/-- A balanced subtree at a position of a tree whose other nodes stand as if the height there were `k`. -/
structure Stands (t : AvlTree ι) (k : ℕ) (c : List (Frame ι)) (s : BinaryTree ι) : Prop where
  hole : Hole t k (rootOf s) c
  linked : Linked t.node (parentOf none c) (indexOf false c) s
  balanced : IsBalanced s

/-- No node but those in `l` is changed, nor is their number. -/
structure Within (l : List ι) (t t' : AvlTree ι) : Prop where
  node : ∀ z ∉ l, t'.node z = t.node z
  numnodes : t'.numnodes = t.numnodes

/-- What a rotation at `a` leaves behind. -/
def Rotated (t : AvlTree ι) (k : ℕ) (c : List (Frame ι)) (d : Bool) (a : ι) (x s : BinaryTree ι) (r : Bool)
    (T : AvlTree ι) : Prop :=
  Within (a :: (inorder x ++ inorder s ++ outside c)) t T ∧
    (r = true ↔ tilt x ≠ 0) ∧
    ∃ y, Stands T k c y ∧ inorder y = inorder (branch d a x s) ∧ y.height = if r then x.height else x.height + 1

theorem avlRotation_single (h : Tilted t k c d a (branch d b l m) s) (hx : IsBalanced (branch d b l m)) (hs : IsBalanced s)
    (hl : l.height = s.height + 1) (hm : m.height = s.height ∨ m.height = s.height + 1) :
    Ends (avlRotation a (2 * sign d)) t (Rotated t k c d a (branch d b l m) s) (fun _ _ => False) := by
  obtain ⟨-, hbm, -, -, hbb, -, -⟩ := linked_branch.mp h.linkedNear
  obtain ⟨-, -, hbl, hbm'⟩ := isBalanced_branch.mp hx
  have hperm : (a :: (inorder (branch d b l m) ++ inorder s ++ outside c)).Perm
      (a :: (b :: (inorder l ++ inorder m)) ++ inorder s ++ outside c) :=
    ((inorder_branch_perm.append_right _).append_right _).cons a
  have hnodup := hperm.nodup_iff.mp h.nodup
  simp only [List.cons_append, List.append_assoc, List.nodup_cons, List.nodup_append, List.mem_cons, List.mem_append,
    not_or] at hnodup
  have hv : (t.node b).balance - sign d = sign d * (s.height - m.height) := by
    rw [hbb, hl]
    push_cast
    ring
  have hapart : ∀ z, rootOf m = some z → (t.node a).parent ≠ some z := by
    intro z hz
    have hmem := rootOf_mem hz
    exact h.parent_ne (by grind)
  have hnodes := avlRotation_single_nodes (h.near.trans rootOf_branch) hbm
    (by rw [hbb]; cases d <;> simp only [sign] <;> omega) (by grind) (by grind [rootOf_mem]) (by grind [rootOf_mem])
    (h.parent_ne (by grind)) (h.parent_ne (by grind))
    hapart
  rw [h.parent, h.index] at hnodes
  refine hnodes.mono (fun r T hpost => ?_) fun _ _ => False.elim
  obtain ⟨rfl, hrot⟩ := hpost
  obtain ⟨hhole, hlinked⟩ := hrot.linked h hl hv hm
  have hshort : (t.node b).balance = sign d ↔ m.height = s.height := by
    rw [hbb]
    cases d <;> simp only [sign] <;> omega
  refine ⟨⟨fun z hz => ?_, hrot.numnodes⟩, ?_, branch d b l (branch (!d) a s m), ⟨?_, hlinked, ?_⟩, ?_, ?_⟩
  · rw [hperm.mem_iff] at hz
    simp only [List.cons_append, List.append_assoc, List.mem_cons, List.mem_append, not_or] at hz
    rw [hrot.other z hz.1 hz.2.1 (by grind [rootOf_mem]), AvlTree.replaced_node, if_neg (by grind [parentOf_mem])]
  · rw [decide_eq_true_eq, hshort, tilt_branch]
    cases d <;> simp only [sign] <;> omega
  · rwa [rootOf_branch]
  · rw [isBalanced_branch, isBalanced_branch, height_branch]
    exact ⟨by omega, by omega, hbl, by omega, by omega, hs, hbm'⟩
  · simp only [inorder_branch, along_not, along_assoc]
  · simp only [decide_eq_true_eq, hshort, height_branch]
    split_ifs <;> omega

theorem avlRotation_double (h : Tilted t k c d a (branch d b l (branch (!d) g r m)) s)
    (hx : IsBalanced (branch d b l (branch (!d) g r m))) (hs : IsBalanced s) (hl : l.height = s.height)
    (hm : (branch (!d) g r m).height = s.height + 1) :
    Ends (avlRotation a (2 * sign d)) t (Rotated t k c d a (branch d b l (branch (!d) g r m)) s) (fun _ _ => False) := by
  obtain ⟨-, hbg, -, -, hbb, -, hlg⟩ := linked_branch.mp h.linkedNear
  obtain ⟨hgr, hgm, -⟩ := linked_branch.mp hlg
  obtain ⟨-, -, hbl, hbg'⟩ := isBalanced_branch.mp hx
  obtain ⟨hrm, hmr, hbr, hbm⟩ := isBalanced_branch.mp hbg'
  have hperm : (a :: (inorder (branch d b l (branch (!d) g r m)) ++ inorder s ++ outside c)).Perm
      (a :: (b :: (inorder l ++ (g :: (inorder r ++ inorder m)))) ++ inorder s ++ outside c) :=
    (((inorder_branch_perm.trans ((inorder_branch_perm.append_left _).cons b)).append_right _).append_right _).cons a
  have hnodup := hperm.nodup_iff.mp h.nodup
  simp only [List.cons_append, List.append_assoc, List.nodup_cons, List.nodup_append, List.mem_cons, List.mem_append,
    not_or] at hnodup
  have hlean : (t.node b).balance = -sign d := by
    rw [hbb, hl, hm]
    push_cast
    ring
  rw [rootOf_branch] at hbg
  rw [Bool.not_not] at hgm
  have hnear : ∀ z, rootOf m = some z → z ≠ a ∧ z ≠ b ∧ z ≠ g ∧ rootOf r ≠ some z ∧ (t.node a).parent ≠ some z := by
    intro z hz
    have hmem := rootOf_mem hz
    have hout : z ∉ outside c := by grind
    exact ⟨by grind, by grind, by grind, by grind [rootOf_mem], h.parent_ne hout⟩
  have hfar : ∀ z, rootOf r = some z → z ≠ a ∧ z ≠ b ∧ z ≠ g ∧ (t.node a).parent ≠ some z := by
    intro z hz
    have hmem := rootOf_mem hz
    have hout : z ∉ outside c := by grind
    exact ⟨by grind, by grind, by grind, h.parent_ne hout⟩
  have hnodes := avlRotation_double_nodes (h.near.trans rootOf_branch) hbg hgm hgr hlean (by grind) (by grind) (by grind)
    hnear hfar ⟨h.parent_ne (by grind), h.parent_ne (by grind), h.parent_ne (by grind)⟩
  rw [h.parent, h.index] at hnodes
  refine hnodes.mono (fun res T hpost => ?_) fun _ _ => False.elim
  obtain ⟨rfl, hrot⟩ := hpost
  rw [height_branch] at hm
  obtain ⟨hhole, hlinked⟩ := hrot.linked h hl (by omega) (by omega) (by omega) ⟨hmr, hrm⟩
  refine ⟨⟨fun z hz => ?_, hrot.numnodes⟩, ?_, branch d g (branch d b l m) (branch (!d) a s r), ⟨?_, hlinked, ?_⟩, ?_, ?_⟩
  · rw [hperm.mem_iff] at hz
    simp only [List.cons_append, List.append_assoc, List.mem_cons, List.mem_append, not_or] at hz
    rw [hrot.other z hz.1 hz.2.1 hz.2.2.2.1 (by grind [rootOf_mem]) (by grind [rootOf_mem]), AvlTree.replaced_node,
      if_neg (by grind [parentOf_mem])]
  · rw [tilt_branch, height_branch, eq_self, true_iff]
    cases d <;> simp only [sign] <;> omega
  · rwa [rootOf_branch]
  · rw [isBalanced_branch, isBalanced_branch, isBalanced_branch, height_branch, height_branch]
    exact ⟨by omega, by omega, ⟨by omega, by omega, hbl, hbm⟩, by omega, by omega, hs, hbr⟩
  · simp only [inorder_branch, along_not, along_assoc]
  · rw [height_branch, height_branch, height_branch, height_branch, height_branch, if_pos rfl]
    omega

theorem avlRotation_spec {x : BinaryTree ι} (h : Tilted t k c d a x s) (hx : IsBalanced x) (hs : IsBalanced s)
    (hheight : x.height = s.height + 2) :
    Ends (avlRotation a (2 * sign d)) t (Rotated t k c d a x s) (fun _ _ => False) := by
  obtain ⟨b, l, m, rfl⟩ := exists_branch d (ne_nil_of_height (by omega : 0 < x.height))
  obtain ⟨hlm, hml, -⟩ := isBalanced_branch.mp hx
  rw [height_branch] at hheight
  by_cases hlean : m.height ≤ l.height
  · exact avlRotation_single h hx hs (by omega) (by omega)
  · obtain ⟨g, r, m, rfl⟩ := exists_branch (!d) (ne_nil_of_height (by omega : 0 < m.height))
    exact avlRotation_double h hx hs (by omega) (by omega)

end IndexFs.Avl
