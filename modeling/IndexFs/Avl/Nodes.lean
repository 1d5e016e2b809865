import IndexFs.Lib.Outcome
import IndexFs.Lib.BalancedTree

/-!
# The nodes of an AVL tree

`struct avl_node` and `struct avl_tree` of `public/avl.h` (lines 69–85 and 135–141).
The containers, the objects of a container and the cached blocks are members of such
trees. A node is embedded in the data it stands for; the two have one address here.
The comparison function is an argument of the functions that call it.

Each node points to its children and to its parent. It knows which child of its parent
it is and how much higher its right subtree is than its left one. `Linked` says that
the nodes in memory agree with a tree in all of this, `Above` that those above a
position do.

Results:

* `linked_plug`: a linked tree is a linked subtree below linked nodes.
* `Linked.reparent`, `Above.reparent`, `Above.redirect`: what is to be changed when another
  subtree is put at a position.
-/

namespace IndexFs.Avl

open BalancedTree BinaryTree

/-! ## Model of the code -/

/-- `struct avl_node`. -/
@[ext] structure AvlNode (ι : Type) where
  child : Bool → Option ι
  parent : Option ι
  childIndex : Bool
  balance : ℤ

/-- `struct avl_tree`, and the memory with the nodes. -/
structure AvlTree (ι : Type) where
  root : Option ι
  numnodes : ℕ
  node : ι → AvlNode ι

/-- A failed `ASSERT`, an access through `NULL`, an index that is not in the array, a loop that goes on. -/
inductive AvlFault
  | assertion
  | null
  | bounds
  | fuel
  deriving DecidableEq, Repr

abbrev AvlM (ι : Type) := EStateM AvlFault (AvlTree ι)

variable {ι : Type}

namespace AvlTree

variable [DecidableEq ι]

def withChild (t : AvlTree ι) (p : ι) (d : Bool) (x : Option ι) : AvlTree ι :=
  { t with node := Function.update t.node p { t.node p with child := Function.update (t.node p).child d x } }

def withParent (t : AvlTree ι) (p : ι) (q : Option ι) : AvlTree ι :=
  { t with node := Function.update t.node p { t.node p with parent := q } }

def withIndex (t : AvlTree ι) (p : ι) (d : Bool) : AvlTree ι :=
  { t with node := Function.update t.node p { t.node p with childIndex := d } }

def withBalance (t : AvlTree ι) (p : ι) (b : ℤ) : AvlTree ι :=
  { t with node := Function.update t.node p { t.node p with balance := b } }

end AvlTree

/-- What a pointer that is used points to. -/
def deref : Option ι → AvlM ι ι
  | some p => return p
  | none => throw .null

/-- `node->avl_child[d]`. -/
def avlChild (p : ι) (d : Bool) : AvlM ι (Option ι) := do return ((← get).node p).child d

/-- `AVL_XPARENT`. -/
def avlXparent (p : ι) : AvlM ι (Option ι) := do return ((← get).node p).parent

/-- `AVL_XCHILD`. -/
def avlXchild (p : ι) : AvlM ι Bool := do return ((← get).node p).childIndex

/-- `AVL_XBALANCE`. -/
def avlXbalance (p : ι) : AvlM ι ℤ := do return ((← get).node p).balance

/-- `tree->avl_root = x`. -/
def setRoot (x : Option ι) : AvlM ι Unit := modify ({ · with root := x })

/-- `ASSERT`. -/
def avlAssert (c : Prop) [Decidable c] : AvlM ι Unit := if c then pure () else throw .assertion

/-- `avl_balance2child`. -/
def avlBalance2child : ℤ → AvlM ι Bool
  | 0 => return false
  | 1 => return false
  | 2 => return true
  | _ => throw .bounds

section Writes

variable [DecidableEq ι]

/-- `node->avl_child[d] = x`. -/
def setChildAt (p : ι) (d : Bool) (x : Option ι) : AvlM ι Unit := modify (·.withChild p d x)

/-- `AVL_SETPARENT`. -/
def avlSetparent (p : ι) (q : Option ι) : AvlM ι Unit := modify (·.withParent p q)

/-- `AVL_SETCHILD`. -/
def avlSetchild (p : ι) (d : Bool) : AvlM ι Unit := modify (·.withIndex p d)

/-- `AVL_SETBALANCE`. -/
def avlSetbalance (p : ι) (b : ℤ) : AvlM ι Unit := modify (·.withBalance p b)

end Writes

/-! ## Steps -/

section Steps

variable {t : AvlTree ι} {F : AvlFault → AvlTree ι → Prop} {p : ι} {d : Bool} {a : ι} {x : Option ι} {b : ℤ}

@[simp] theorem ends_deref {Q : ι → AvlTree ι → Prop} : Ends (deref (some p)) t Q F ↔ Q p t := Iff.rfl

@[simp] theorem ends_avlChild {Q : Option ι → AvlTree ι → Prop} :
    Ends (avlChild p d) t Q F ↔ Q ((t.node p).child d) t := Iff.rfl

@[simp] theorem ends_avlXparent {Q : Option ι → AvlTree ι → Prop} :
    Ends (avlXparent p) t Q F ↔ Q (t.node p).parent t := Iff.rfl

@[simp] theorem ends_avlXchild {Q : Bool → AvlTree ι → Prop} :
    Ends (avlXchild p) t Q F ↔ Q (t.node p).childIndex t := Iff.rfl

@[simp] theorem ends_avlXbalance {Q : ℤ → AvlTree ι → Prop} :
    Ends (avlXbalance p) t Q F ↔ Q (t.node p).balance t := Iff.rfl

@[simp] theorem ends_setRoot {Q : Unit → AvlTree ι → Prop} :
    Ends (setRoot x) t Q F ↔ Q () { t with root := x } := Iff.rfl

theorem ends_avlAssert {c : Prop} [Decidable c] {Q : Unit → AvlTree ι → Prop} (hc : c) :
    Ends (avlAssert c) t Q F ↔ Q () t := by
  unfold avlAssert
  rw [if_pos hc]
  exact Iff.rfl

variable [DecidableEq ι]

@[simp] theorem ends_setChildAt {Q : Unit → AvlTree ι → Prop} :
    Ends (setChildAt p d x) t Q F ↔ Q () (t.withChild p d x) := Iff.rfl

@[simp] theorem ends_avlSetparent {Q : Unit → AvlTree ι → Prop} :
    Ends (avlSetparent p x) t Q F ↔ Q () (t.withParent p x) := Iff.rfl

@[simp] theorem ends_avlSetchild {Q : Unit → AvlTree ι → Prop} :
    Ends (avlSetchild p d) t Q F ↔ Q () (t.withIndex p d) := Iff.rfl

@[simp] theorem ends_avlSetbalance {Q : Unit → AvlTree ι → Prop} :
    Ends (avlSetbalance p b) t Q F ↔ Q () (t.withBalance p b) := Iff.rfl

namespace AvlTree

@[simp] theorem withChild_root : (t.withChild p d x).root = t.root := rfl
@[simp] theorem withChild_numnodes : (t.withChild p d x).numnodes = t.numnodes := rfl
@[simp] theorem withParent_root : (t.withParent p x).root = t.root := rfl
@[simp] theorem withParent_numnodes : (t.withParent p x).numnodes = t.numnodes := rfl
@[simp] theorem withIndex_root : (t.withIndex p d).root = t.root := rfl
@[simp] theorem withIndex_numnodes : (t.withIndex p d).numnodes = t.numnodes := rfl
@[simp] theorem withBalance_root : (t.withBalance p b).root = t.root := rfl
@[simp] theorem withBalance_numnodes : (t.withBalance p b).numnodes = t.numnodes := rfl

@[simp] theorem withChild_node : (t.withChild p d x).node a =
    if a = p then { t.node a with child := Function.update (t.node a).child d x } else t.node a := by
  show Function.update _ _ _ _ = _
  rw [Function.update_apply]
  split_ifs with h
  · rw [h]
  · rfl

@[simp] theorem withParent_node : (t.withParent p x).node a =
    if a = p then { t.node a with parent := x } else t.node a := by
  show Function.update _ _ _ _ = _
  rw [Function.update_apply]
  split_ifs with h
  · rw [h]
  · rfl

@[simp] theorem withIndex_node : (t.withIndex p d).node a =
    if a = p then { t.node a with childIndex := d } else t.node a := by
  show Function.update _ _ _ _ = _
  rw [Function.update_apply]
  split_ifs with h
  · rw [h]
  · rfl

@[simp] theorem withBalance_node : (t.withBalance p b).node a =
    if a = p then { t.node a with balance := b } else t.node a := by
  show Function.update _ _ _ _ = _
  rw [Function.update_apply]
  split_ifs with h
  · rw [h]
  · rfl

theorem withChild_balance : ((t.withChild p d x).node a).balance = (t.node a).balance := by
  rw [withChild_node]
  split_ifs <;> rfl

end AvlTree

end Steps

/-! ## Trees in memory -/

/-- The nodes of a tree below the parent `p`, of which the root is the child with the index `e`. -/
def Linked (m : ι → AvlNode ι) : Option ι → Bool → BinaryTree ι → Prop
  | _, _, nil => True
  | p, e, node a l r =>
    (m a).child false = rootOf l ∧ (m a).child true = rootOf r ∧ (m a).parent = p ∧ (m a).childIndex = e ∧
      (m a).balance = r.height - l.height ∧ Linked m (some a) false l ∧ Linked m (some a) true r

/-- The node above a position, if the tree lies below `p`. -/
def parentOf (p : Option ι) : List (Frame ι) → Option ι
  | [] => p
  | f :: _ => some f.label

/-- The side of that node. -/
def indexOf (e : Bool) : List (Frame ι) → Bool
  | [] => e
  | f :: _ => f.side

/-- The nodes above a position where there is a subtree with the root `x`, if the height there is `k`. -/
def Above (m : ι → AvlNode ι) (p : Option ι) (e : Bool) : ℕ → Option ι → List (Frame ι) → Prop
  | _, _, [] => True
  | k, x, f :: c =>
    (m f.label).child f.side = x ∧ (m f.label).child (!f.side) = rootOf f.sibling ∧ (m f.label).parent = parentOf p c ∧
      (m f.label).childIndex = indexOf e c ∧ (m f.label).balance = sign f.side * (k - f.sibling.height) ∧
      Linked m (some f.label) (!f.side) f.sibling ∧ Above m p e (max k f.sibling.height + 1) (some f.label) c

section Linked

variable {m m' : ι → AvlNode ι} {p q x y : Option ι} {d e e' : Bool} {a : ι} {l r s : BinaryTree ι} {k : ℕ}
  {b c : List (Frame ι)} {f : Frame ι}

@[simp] theorem parentOf_nil : parentOf p ([] : List (Frame ι)) = p := rfl
@[simp] theorem parentOf_cons : parentOf p (f :: c) = some f.label := rfl
@[simp] theorem indexOf_nil : indexOf e ([] : List (Frame ι)) = e := rfl
@[simp] theorem indexOf_cons : indexOf e (f :: c) = f.side := rfl

theorem linked_branch : Linked m p e (branch d a l r) ↔
    (m a).child d = rootOf l ∧ (m a).child (!d) = rootOf r ∧ (m a).parent = p ∧ (m a).childIndex = e ∧
      (m a).balance = sign d * (l.height - r.height) ∧ Linked m (some a) d l ∧ Linked m (some a) (!d) r := by
  cases d with
  | false =>
    have hsign : sign false * ((l.height : ℤ) - r.height) = r.height - l.height := by simp [sign]
    rw [hsign]
    exact Iff.rfl
  | true =>
    have hsign : sign true * ((l.height : ℤ) - r.height) = l.height - r.height := by simp [sign]
    rw [hsign]
    show _ ∧ _ ∧ _ ∧ _ ∧ _ ∧ _ ∧ _ ↔ _
    tauto

/-- Nodes that did not change. -/
theorem Linked.congr (h : Linked m p e s) (hm : ∀ a ∈ inorder s, m' a = m a) : Linked m' p e s := by
  induction s generalizing p e with
  | nil => trivial
  | node a l r ihl ihr =>
    unfold Linked at h ⊢
    rw [hm a (List.mem_append_right _ List.mem_cons_self)]
    obtain ⟨hl, hr, hp, he, hb, hll, hlr⟩ := h
    refine ⟨hl, hr, hp, he, hb, ihl hll fun b hb => ?_, ihr hlr fun b hb => ?_⟩
    · exact hm b (List.mem_append_left _ hb)
    · exact hm b (List.mem_append_right _ (List.mem_cons_of_mem a hb))

/-- A tree is put below another parent, by a change of its root. -/
theorem Linked.reparent (h : Linked m p e s) (hs : (inorder s).Nodup)
    (hroot : ∀ a, rootOf s = some a →
      (m' a).child = (m a).child ∧ (m' a).parent = q ∧ (m' a).childIndex = e' ∧ (m' a).balance = (m a).balance)
    (hm : ∀ a ∈ inorder s, rootOf s ≠ some a → m' a = m a) : Linked m' q e' s := by
  cases s with
  | nil => trivial
  | node a l r =>
    obtain ⟨hchild, hparent, hindex, hbalance⟩ := hroot a rfl
    unfold Linked at h ⊢
    rw [hchild, hbalance]
    obtain ⟨hl, hr, -, -, hb, hll, hlr⟩ := h
    have hbelow : ∀ b ∈ inorder l ++ inorder r, m' b = m b := by
      intro b hmem
      have hne : b ≠ a := by
        rintro rfl
        exact (List.nodup_middle.mp hs).notMem hmem
      refine hm b ?_ fun heq => hne (Option.some.inj heq).symm
      exact List.perm_middle.mem_iff.mpr (List.mem_cons_of_mem a hmem)
    refine ⟨hl, hr, hparent, hindex, hb, hll.congr fun b hmem => ?_, hlr.congr fun b hmem => ?_⟩
    · exact hbelow b (List.mem_append_left _ hmem)
    · exact hbelow b (List.mem_append_right _ hmem)

/-- The index of the root. -/
theorem Linked.childIndex (h : Linked m p e s) (hs : rootOf s = some a) : (m a).childIndex = e := by
  cases s with
  | nil => cases hs
  | node b l r =>
    cases hs
    exact h.2.2.2.1

/-- Nodes that did not change. -/
theorem Above.congr (h : Above m p e k x c) (hm : ∀ a ∈ outside c, m' a = m a) : Above m' p e k x c := by
  induction c generalizing k x with
  | nil => trivial
  | cons f c ih =>
    have hmem : ∀ a ∈ f.label :: inorder f.sibling ++ outside c, m' a = m a := by
      intro a ha
      exact hm a (outside_cons_perm.mem_iff.mpr ha)
    unfold Above at h ⊢
    rw [hmem f.label List.mem_cons_self]
    obtain ⟨hx, hs, hp, he, hb, hl, hc⟩ := h
    refine ⟨hx, hs, hp, he, hb, hl.congr fun a ha => ?_, ih hc fun a ha => ?_⟩
    · exact hmem a (List.mem_append_left _ (List.mem_cons_of_mem _ ha))
    · exact hmem a (List.mem_append_right _ ha)

/-- The root of another subtree is put at a position, by a change of the node above. -/
theorem Above.redirect (h : Above m p e k x c) (hc : (outside c).Nodup)
    (hparent : ∀ a, parentOf none c = some a → m' a = { m a with child := Function.update (m a).child (indexOf false c) y })
    (hm : ∀ a ∈ outside c, parentOf none c ≠ some a → m' a = m a) : Above m' p e k y c := by
  cases c with
  | nil => trivial
  | cons f c =>
    have hnodup := outside_cons_perm.nodup_iff.mp hc
    rw [List.cons_append, List.nodup_cons] at hnodup
    have hmem : ∀ a ∈ inorder f.sibling ++ outside c, m' a = m a := by
      intro a ha
      refine hm a (outside_cons_perm.mem_iff.mpr (List.mem_cons_of_mem _ ha)) ?_
      rintro ⟨⟩
      exact hnodup.1 ha
    unfold Above at h ⊢
    rw [hparent f.label rfl]
    obtain ⟨-, hs, hp, he, hb, hl, hc⟩ := h
    refine ⟨Function.update_self _ _ _, ?_, hp, he, hb, hl.congr fun a ha => ?_, hc.congr fun a ha => ?_⟩
    · show Function.update _ f.side _ _ = _
      rw [Function.update_of_ne (Bool.not_ne_self f.side), hs]
    · exact hmem a (List.mem_append_left _ ha)
    · exact hmem a (List.mem_append_right _ ha)

/-- The nodes above a position are put below another parent, by a change of the topmost one. -/
theorem Above.reparent (h : Above m p e k x c) (hc : (outside c).Nodup)
    (htop : ∀ a, topOf none c = some a → m' a = { m a with parent := q })
    (hm : ∀ a ∈ outside c, topOf none c ≠ some a → m' a = m a) : Above m' q e k x c := by
  induction c generalizing k x with
  | nil => trivial
  | cons f c ih =>
    have hnodup := outside_cons_perm.nodup_iff.mp hc
    rw [List.cons_append, List.nodup_cons] at hnodup
    obtain ⟨hlabel, hbelow⟩ := hnodup
    have hmem : ∀ a ∈ inorder f.sibling ++ outside c, a ∈ outside (f :: c) := fun a ha =>
      outside_cons_perm.mem_iff.mpr (List.mem_cons_of_mem _ ha)
    unfold Above at h ⊢
    obtain ⟨hx, hs, hp, he, hb, hl, habove⟩ := h
    cases c with
    | nil =>
      rw [htop f.label rfl]
      refine ⟨hx, hs, rfl, he, hb, hl.congr fun a ha => ?_, trivial⟩
      refine hm a (hmem a (List.mem_append_left _ ha)) ?_
      rintro ⟨⟩
      exact hlabel (List.mem_append_left _ ha)
    | cons g c =>
      obtain ⟨w, hw, hwc⟩ := exists_topOf g c none
      have htopw : topOf none (f :: g :: c) = some w := hw
      have hlabelw : topOf none (f :: g :: c) ≠ some f.label := by
        rw [htopw]
        rintro ⟨⟩
        exact hlabel (List.mem_append_right _ hwc)
      rw [hm f.label (outside_cons_perm.mem_iff.mpr List.mem_cons_self) hlabelw]
      refine ⟨hx, hs, hp, he, hb, hl.congr fun a ha => ?_, ih habove (List.nodup_append.mp hbelow).2.1 htop fun a ha => ?_⟩
      · refine hm a (hmem a (List.mem_append_left _ ha)) ?_
        rw [htopw]
        rintro ⟨⟩
        exact (List.nodup_append.mp hbelow).2.2 _ ha _ hwc rfl
      · exact hm a (hmem a (List.mem_append_right _ ha))

/-- The parent of a position is one of the nodes around it. -/
theorem parentOf_mem (h : parentOf none c = some a) : a ∈ outside c := by
  cases c with
  | nil => cases h
  | cons f c =>
    cases h
    exact outside_cons_perm.mem_iff.mpr List.mem_cons_self

theorem topOf_eq {root : Option ι} (hroot : root = topOf x c) (y : Option ι) :
    (if parentOf none c = none then y else root) = topOf y c := by
  cases c with
  | nil => rfl
  | cons f c => exact hroot

theorem linked_plug : Linked m p e (plug c s) ↔
    Above m p e s.height (rootOf s) c ∧ Linked m (parentOf p c) (indexOf e c) s := by
  induction c generalizing s with
  | nil => exact (and_iff_right trivial).symm
  | cons f c ih =>
    unfold plug Above
    rw [ih, linked_branch, rootOf_branch, height_branch]
    show _ ↔ _ ∧ Linked m (some f.label) f.side s
    tauto

end Linked

end IndexFs.Avl
