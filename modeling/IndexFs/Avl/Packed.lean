import IndexFs.Avl.Remove

/-!
# The word `avl_pcb`

On a machine with 64-bit pointers a node keeps its parent, its child index and its
balance in one word (`public/avl.h`, lines 85–128): the parent in the bits from 3 on, the
index in bit 2 and the balance, plus one, in bits 0 and 1. A node lies at a multiple of
8, and `NULL` is 0. `avl_index_t` packs a node and a child index in the same manner.

Results:

* `unpack_setparent`, `unpack_setchild`, `unpack_setbalance`: a write to one field reads back
  and leaves the others alone.
* `view_writes`: every sequence of writes of the functions has the effect on memory with such
  words that it has on the nodes of `Avl.Nodes`.
* `packed_holds`: a balanced tree whose nodes lie at multiples of 8 fits into such memory.
* `unpack_mkindex`: a place in a tree is what it was packed from.
-/

namespace IndexFs.Avl

/-! ## Model of the code -/

abbrev Word := BitVec 64

/-- `AVL_XPARENT` of the word. -/
def pcbXparent (pcb : Word) : Word := pcb &&& ~~~7#64

/-- `AVL_SETPARENT`. -/
def pcbSetparent (pcb p : Word) : Word := (pcb &&& 7#64) ||| p

/-- `AVL_XCHILD`. -/
def pcbXchild (pcb : Word) : Word := (pcb >>> 2) &&& 1#64

/-- `AVL_SETCHILD`. -/
def pcbSetchild (pcb c : Word) : Word := (pcb &&& ~~~4#64) ||| (c <<< 2)

/-- `AVL_XBALANCE`: an `unsigned long` difference, converted to `int`. -/
def pcbXbalance (pcb : Word) : ℤ := (((pcb &&& 3#64) - 1#64).setWidth 32).toInt

/-- `AVL_SETBALANCE`. -/
def pcbSetbalance (pcb : Word) (b : ℤ) : Word := (pcb &&& ~~~3#64) ||| BitVec.ofInt 64 (b + 1)

/-- `AVL_MKINDEX`, `AVL_INDEX2NODE` and `AVL_INDEX2CHILD`. -/
def avlMkindex (n c : Word) : Word := n ||| c

def avlIndex2node (x : Word) : Word := x &&& ~~~1#64

def avlIndex2child (x : Word) : Word := x &&& 1#64

/-- A child index as the code has it. -/
def childWord (d : Bool) : Word := bif d then 1#64 else 0#64

/-- What a word says of a node. -/
structure PcbFields where
  parent : Word
  child : Bool
  balance : ℤ
  deriving DecidableEq

def unpack (pcb : Word) : PcbFields := ⟨pcbXparent pcb, pcbXchild pcb == 1#64, pcbXbalance pcb⟩

/-- The memory: nodes at their addresses, with pointers to the children and the word. -/
structure PackedTree where
  root : Word
  numnodes : ℕ
  child : Word → Bool → Word
  pcb : Word → Word

/-- A pointer, which may be `NULL`. -/
def pointer (p : Word) : Option Word := if p = 0#64 then none else some p

/-- The nodes that the memory holds. -/
def PackedTree.view (t : PackedTree) : AvlTree Word where
  root := pointer t.root
  numnodes := t.numnodes
  node p := ⟨fun d => pointer (t.child p d), pointer (unpack (t.pcb p)).parent, (unpack (t.pcb p)).child,
    (unpack (t.pcb p)).balance⟩

/-- The writes that the functions make. -/
inductive AvlWrite
  | root (x : Word)
  | numnodes (n : ℕ)
  | child (p : Word) (d : Bool) (x : Word)
  | parent (p q : Word)
  | index (p : Word) (d : Bool)
  | balance (p : Word) (b : ℤ)
  | copy (p q : Word)

/-- A write to the memory. -/
def AvlWrite.onPacked (t : PackedTree) : AvlWrite → PackedTree
  | .root x => { t with root := x }
  | .numnodes n => { t with numnodes := n }
  | .child p d x => { t with child := Function.update t.child p (Function.update (t.child p) d x) }
  | .parent p q => { t with pcb := Function.update t.pcb p (pcbSetparent (t.pcb p) q) }
  | .index p d => { t with pcb := Function.update t.pcb p (pcbSetchild (t.pcb p) (childWord d)) }
  | .balance p b => { t with pcb := Function.update t.pcb p (pcbSetbalance (t.pcb p) b) }
  | .copy p q =>
    { t with child := Function.update t.child p (t.child q), pcb := Function.update t.pcb p (t.pcb q) }

/-- The write to the nodes. -/
def AvlWrite.onTree (t : AvlTree Word) : AvlWrite → AvlTree Word
  | .root x => { t with root := pointer x }
  | .numnodes n => { t with numnodes := n }
  | .child p d x => t.withChild p d (pointer x)
  | .parent p q => t.withParent p (pointer q)
  | .index p d => t.withIndex p d
  | .balance p b => t.withBalance p b
  | .copy p q => t.copied p q

/-- A parent lies at a multiple of 8, and a balance is at most one. -/
def AvlWrite.Ok : AvlWrite → Prop
  | .parent _ q => q &&& 7#64 = 0#64
  | .balance _ b => -1 ≤ b ∧ b ≤ 1
  | _ => True

/-! ## Bits -/

section

variable {pcb p c w : Word} {b : ℤ} {d : Bool} {i : ℕ}

theorem bit_seven : (7#64).getLsbD i = decide (i < 3) := by
  rcases i with _ | _ | _ | i <;> simp [BitVec.getLsbD_ofNat, Nat.testBit_succ]

theorem bit_four : (4#64).getLsbD i = decide (i = 2) := by
  rcases i with _ | _ | _ | i <;> simp [BitVec.getLsbD_ofNat, Nat.testBit_succ]

theorem bit_three : (3#64).getLsbD i = decide (i < 2) := by
  rcases i with _ | _ | i <;> simp [BitVec.getLsbD_ofNat, Nat.testBit_succ]

theorem bit_one : (1#64).getLsbD i = decide (i = 0) := by
  rcases i with _ | i <;> simp [BitVec.getLsbD_ofNat, Nat.testBit_succ]

/-- The low bits of an aligned address. -/
theorem bit_aligned (h : p &&& 7#64 = 0#64) (hi : i < 3) : p.getLsbD i = false := by
  have hbit := congrArg (·.getLsbD i) h
  simpa [BitVec.getLsbD_and, bit_seven, hi] using hbit

/-- A balance takes two bits. -/
theorem bit_balance (h : -1 ≤ b ∧ b ≤ 1) (hi : 2 ≤ i) : (BitVec.ofInt 64 (b + 1)).getLsbD i = false := by
  obtain rfl | rfl | rfl : b = -1 ∨ b = 0 ∨ b = 1 := by omega
  · simp
  · show (1#64).getLsbD i = false
    rw [bit_one]
    simp
    omega
  · show (2#64).getLsbD i = false
    rcases i with _ | _ | i
    · omega
    · omega
    · simp [BitVec.getLsbD_ofNat, Nat.testBit_succ]

theorem bit_child : (childWord d).getLsbD i = (decide (i = 0) && d) := by
  cases d
  · simp [childWord]
  · simp [childWord]

/-! ## Fields -/

theorem bit_xparent (hi : i < 64) : (pcbXparent pcb).getLsbD i = (decide (3 ≤ i) && pcb.getLsbD i) := by
  unfold pcbXparent
  rw [BitVec.getLsbD_and, BitVec.getLsbD_not, bit_seven]
  by_cases h : i < 3
  · simp [h]
  · simp [h, hi, Nat.not_lt.mp h]

theorem xchild_eq : (pcbXchild pcb == 1#64) = pcb.getLsbD 2 := by
  have hword : pcbXchild pcb = childWord (pcb.getLsbD 2) := by
    refine BitVec.eq_of_getLsbD_eq fun i _ => ?_
    unfold pcbXchild
    rw [BitVec.getLsbD_and, BitVec.getLsbD_ushiftRight, bit_one, bit_child]
    by_cases h : i = 0
    · simp [h]
    · simp [h]
  rw [hword]
  cases pcb.getLsbD 2 <;> rfl

/-- The balance is in the low bits. -/
theorem xbalance_congr (h : ∀ i < 2, pcb.getLsbD i = w.getLsbD i) : pcbXbalance pcb = pcbXbalance w := by
  have hlow : pcb &&& 3#64 = w &&& 3#64 := by
    refine BitVec.eq_of_getLsbD_eq fun i _ => ?_
    rw [BitVec.getLsbD_and, BitVec.getLsbD_and, bit_three]
    by_cases hi : i < 2
    · rw [h i hi]
    · simp [hi]
  unfold pcbXbalance
  rw [hlow]

/-- The parent is in the high bits. -/
theorem xparent_congr (h : ∀ i, 3 ≤ i → i < 64 → pcb.getLsbD i = w.getLsbD i) : pcbXparent pcb = pcbXparent w := by
  refine BitVec.eq_of_getLsbD_eq fun i hi => ?_
  rw [bit_xparent hi, bit_xparent hi]
  by_cases hlow : 3 ≤ i
  · rw [h i hlow hi]
  · simp [hlow]

theorem bit_setparent : (pcbSetparent pcb p).getLsbD i = ((pcb.getLsbD i && decide (i < 3)) || p.getLsbD i) := by
  unfold pcbSetparent
  rw [BitVec.getLsbD_or, BitVec.getLsbD_and, bit_seven]

theorem bit_setchild (hi : i < 64) :
    (pcbSetchild pcb (childWord d)).getLsbD i = bif decide (i = 2) then d else pcb.getLsbD i := by
  unfold pcbSetchild
  rw [BitVec.getLsbD_or, BitVec.getLsbD_and, BitVec.getLsbD_not, bit_four, BitVec.getLsbD_shiftLeft, bit_child]
  by_cases h : i = 2
  · simp [h]
  · by_cases h' : i < 2
    · simp [h, h', hi]
    · simp [h, h', hi, show i - 2 ≠ 0 by omega]

theorem bit_setbalance (hi : i < 64) :
    (pcbSetbalance pcb b).getLsbD i = ((decide (2 ≤ i) && pcb.getLsbD i) || (BitVec.ofInt 64 (b + 1)).getLsbD i) := by
  unfold pcbSetbalance
  rw [BitVec.getLsbD_or, BitVec.getLsbD_and, BitVec.getLsbD_not, bit_three]
  by_cases h : i < 2
  · simp [h, Nat.not_le.mpr h]
  · simp [h, hi, Nat.not_lt.mp h]

theorem unpack_setparent (h : p &&& 7#64 = 0#64) :
    unpack (pcbSetparent pcb p) = { unpack pcb with parent := p } := by
  have hlow : ∀ i < 3, (pcbSetparent pcb p).getLsbD i = pcb.getLsbD i := by
    intro i hi
    rw [bit_setparent, bit_aligned h hi]
    simp [hi]
  have hparent : pcbXparent (pcbSetparent pcb p) = p := by
    refine BitVec.eq_of_getLsbD_eq fun i hi => ?_
    rw [bit_xparent hi, bit_setparent]
    by_cases hlow : i < 3
    · simp [bit_aligned h hlow, hlow, Nat.not_le.mpr hlow]
    · simp [hlow, Nat.not_lt.mp hlow]
  unfold unpack
  rw [hparent, xchild_eq, xchild_eq, hlow 2 (by omega), xbalance_congr fun i hi => hlow i (by omega)]

theorem unpack_setchild : unpack (pcbSetchild pcb (childWord d)) = { unpack pcb with child := d } := by
  have hother : ∀ i < 64, i ≠ 2 → (pcbSetchild pcb (childWord d)).getLsbD i = pcb.getLsbD i := by
    intro i hi hne
    rw [bit_setchild hi]
    simp [hne]
  unfold unpack
  rw [xchild_eq, xchild_eq, bit_setchild (by omega), xparent_congr fun i hlow hi => hother i hi (by omega),
    xbalance_congr fun i hi => hother i (by omega) (by omega)]
  rfl

theorem unpack_setbalance (h : -1 ≤ b ∧ b ≤ 1) :
    unpack (pcbSetbalance pcb b) = { unpack pcb with balance := b } := by
  have hhigh : ∀ i, 2 ≤ i → i < 64 → (pcbSetbalance pcb b).getLsbD i = pcb.getLsbD i := by
    intro i hi hlt
    rw [bit_setbalance hlt, bit_balance h hi]
    simp [hi]
  have hbalance : pcbXbalance (pcbSetbalance pcb b) = b := by
    have hlow : pcbXbalance (pcbSetbalance pcb b) = pcbXbalance (BitVec.ofInt 64 (b + 1)) := by
      refine xbalance_congr fun i hi => ?_
      rw [bit_setbalance (by omega)]
      simp [Nat.not_le.mpr hi]
    rw [hlow]
    obtain rfl | rfl | rfl : b = -1 ∨ b = 0 ∨ b = 1 := by omega
    all_goals rfl
  unfold unpack
  rw [xchild_eq, xchild_eq, hhigh 2 le_rfl (by omega), hbalance, xparent_congr fun i hi hlt => hhigh i (by omega) hlt]

/-- A place in a tree is what it was packed from. -/
theorem unpack_mkindex (h : p &&& 7#64 = 0#64) :
    avlIndex2node (avlMkindex p (childWord d)) = p ∧ avlIndex2child (avlMkindex p (childWord d)) = childWord d := by
  have hzero : p.getLsbD 0 = false := bit_aligned h (by omega)
  constructor
  · refine BitVec.eq_of_getLsbD_eq fun i hi => ?_
    unfold avlIndex2node avlMkindex
    rw [BitVec.getLsbD_and, BitVec.getLsbD_or, BitVec.getLsbD_not, bit_one, bit_child]
    by_cases hi0 : i = 0
    · rw [hi0, hzero]
      simp
    · simp [hi0, hi]
  · refine BitVec.eq_of_getLsbD_eq fun i _ => ?_
    unfold avlIndex2child avlMkindex
    rw [BitVec.getLsbD_and, BitVec.getLsbD_or, bit_one, bit_child]
    by_cases hi0 : i = 0
    · rw [hi0, hzero]
      simp
    · simp [hi0]

/-! ## Memory -/

variable {t : PackedTree} {x : AvlWrite}

/-- A write to one word changes what it says of its node. -/
theorem unpack_update {a : Word} : (unpack (Function.update t.pcb p w a)) = if a = p then unpack w else unpack (t.pcb a) := by
  rw [Function.update_apply]
  split_ifs <;> rfl

theorem view_ext {s s' : AvlTree Word} (hroot : s.root = s'.root) (hnumnodes : s.numnodes = s'.numnodes)
    (hnode : ∀ a, s.node a = s'.node a) : s = s' := by
  obtain ⟨root, numnodes, node⟩ := s
  obtain ⟨root', numnodes', node'⟩ := s'
  cases hroot
  cases hnumnodes
  cases funext hnode
  rfl

/-- The node of a word that is written. -/
theorem view_pcb {s : AvlTree Word} (hroot : s.root = t.view.root) (hnumnodes : s.numnodes = t.view.numnodes)
    (hnode : ∀ a, s.node a = if a = p then
      ⟨(t.view.node p).child, pointer (unpack w).parent, (unpack w).child, (unpack w).balance⟩ else t.view.node a) :
    PackedTree.view { t with pcb := Function.update t.pcb p w } = s := by
  refine view_ext hroot.symm hnumnodes.symm fun a => ?_
  show AvlNode.mk _ (pointer (unpack (Function.update t.pcb p w a)).parent) (unpack (Function.update t.pcb p w a)).child
    (unpack (Function.update t.pcb p w a)).balance = s.node a
  rw [hnode, unpack_update]
  split_ifs with ha
  · rw [ha]
    rfl
  · rfl

theorem view_write (h : x.Ok) : (x.onPacked t).view = x.onTree t.view := by
  cases x with
  | root x => rfl
  | numnodes n => rfl
  | child p d x =>
    refine view_ext rfl rfl fun a => ?_
    show _ = (t.view.withChild p d (pointer x)).node a
    rw [AvlTree.withChild_node]
    by_cases ha : a = p
    · rw [if_pos ha, ha]
      refine AvlNode.ext ?_ rfl rfl rfl
      funext e
      show pointer (Function.update t.child p _ p e) = Function.update (t.view.node p).child d (pointer x) e
      rw [Function.update_self, Function.update_apply, Function.update_apply]
      split_ifs <;> rfl
    · rw [if_neg ha]
      refine AvlNode.ext ?_ rfl rfl rfl
      funext e
      show pointer (Function.update t.child p _ a e) = pointer (t.child a e)
      rw [Function.update_of_ne ha]
  | parent p q =>
    refine view_pcb rfl rfl fun a => ?_
    show (t.view.withParent p (pointer q)).node a = _
    rw [AvlTree.withParent_node, unpack_setparent h]
    split_ifs with ha
    · rw [ha]
      rfl
    · rfl
  | index p d =>
    refine view_pcb rfl rfl fun a => ?_
    show (t.view.withIndex p d).node a = _
    rw [AvlTree.withIndex_node, unpack_setchild]
    split_ifs with ha
    · rw [ha]
      rfl
    · rfl
  | balance p b =>
    refine view_pcb rfl rfl fun a => ?_
    show (t.view.withBalance p b).node a = _
    rw [AvlTree.withBalance_node, unpack_setbalance h]
    split_ifs with ha
    · rw [ha]
      rfl
    · rfl
  | copy p q =>
    refine view_ext rfl rfl fun a => ?_
    show AvlNode.mk (fun d => pointer (Function.update t.child p (t.child q) a d))
      (pointer (unpack (Function.update t.pcb p (t.pcb q) a)).parent) (unpack (Function.update t.pcb p (t.pcb q) a)).child
      (unpack (Function.update t.pcb p (t.pcb q) a)).balance = (t.view.copied p q).node a
    rw [AvlTree.copied_node, unpack_update, Function.update_apply]
    split_ifs <;> rfl

/-- Every sequence of writes has the effect on the words that it has on the nodes. -/
theorem view_writes {xs : List AvlWrite} (h : ∀ x ∈ xs, x.Ok) :
    (xs.foldl AvlWrite.onPacked t).view = xs.foldl AvlWrite.onTree t.view := by
  induction xs generalizing t with
  | nil => rfl
  | cons x xs ih =>
    rw [List.foldl_cons, List.foldl_cons, ih fun y hy => h y (List.mem_cons_of_mem x hy), view_write (h x List.mem_cons_self)]

/-- A node becomes the right child of another one, in a word with other contents. -/
theorem view_writes_right :
    ([.parent 8 16, .index 8 true, .balance 8 (-1)].foldl AvlWrite.onPacked
      ⟨16, 2, fun _ _ => 0, fun _ => 3⟩).view =
    [.parent 8 16, .index 8 true, .balance 8 (-1)].foldl AvlWrite.onTree
      (PackedTree.view ⟨16, 2, fun _ _ => 0, fun _ => 3⟩) := by
  refine view_writes fun x hx => ?_
  simp only [List.mem_cons, List.not_mem_nil, or_false] at hx
  obtain rfl | rfl | rfl := hx
  · exact (by decide : (16#64) &&& 7#64 = 0#64)
  · trivial
  · exact (by decide : -1 ≤ (-1 : ℤ) ∧ (-1 : ℤ) ≤ 1)

/-! ## Trees -/

open BalancedTree BinaryTree

/-- The word with the fields of a node. -/
def packNode (n : AvlNode Word) : Word :=
  pcbSetbalance (pcbSetchild (pcbSetparent 0#64 (n.parent.getD 0#64)) (childWord n.childIndex)) n.balance

/-- The memory with the nodes of a tree. -/
def packTree (t : AvlTree Word) : PackedTree where
  root := t.root.getD 0#64
  numnodes := t.numnodes
  child p d := ((t.node p).child d).getD 0#64
  pcb p := packNode (t.node p)

/-- A node lies at a multiple of 8, and not at `NULL`. -/
def IsAligned (p : Word) : Prop := p &&& 7#64 = 0#64 ∧ p ≠ 0#64

theorem pointer_getD {x : Option Word} (h : ∀ p, x = some p → IsAligned p) :
    pointer (x.getD 0#64) = x ∧ x.getD 0#64 &&& 7#64 = 0#64 := by
  cases x with
  | none => exact ⟨rfl, rfl⟩
  | some p => exact ⟨if_neg (h p rfl).2, (h p rfl).1⟩

/-- A balanced tree fits: the pointers of its nodes lead to nodes, and the heights differ by one at most. -/
theorem packed_holds {t : AvlTree Word} {s : BinaryTree Word} (h : Holds t s)
    (hs : ∀ a ∈ BalancedTree.inorder s, IsAligned a) :
    (packTree t).view.root = t.root ∧ (packTree t).view.numnodes = t.numnodes ∧
      ∀ a ∈ BalancedTree.inorder s, (packTree t).view.node a = t.node a := by
  refine ⟨(pointer_getD fun p hp => hs p (rootOf_mem (h.root.symm.trans hp))).1, rfl, fun a ha => ?_⟩
  obtain ⟨c, l, r, rfl⟩ := exists_plug ha
  obtain ⟨hstands, -⟩ := h.stands
  obtain ⟨hl, hr, hparent, -, hbalance, -⟩ := hstands.linked
  obtain ⟨hlr, hrl, -⟩ := hstands.balanced
  have hinner : ∀ p ∈ BalancedTree.inorder (node a l r), IsAligned p := fun p hp =>
    hs p (inorder_plug_perm.mem_iff.mpr (List.mem_append_left _ hp))
  have hchild : ∀ d p, (t.node a).child d = some p → IsAligned p := by
    intro d p hp
    cases d with
    | false => exact hinner p (List.mem_append_left _ (rootOf_mem (hl.symm.trans hp)))
    | true => exact hinner p (List.mem_append_right _ (List.mem_cons_of_mem a (rootOf_mem (hr.symm.trans hp))))
  have habove : ∀ p, (t.node a).parent = some p → IsAligned p := fun p hp =>
    hs p (inorder_plug_perm.mem_iff.mpr (List.mem_append_right _ (parentOf_mem (hparent.symm.trans hp))))
  have hbounds : -1 ≤ (t.node a).balance ∧ (t.node a).balance ≤ 1 := by omega
  have hword : unpack (packNode (t.node a)) =
      ⟨(t.node a).parent.getD 0#64, (t.node a).childIndex, (t.node a).balance⟩ := by
    unfold packNode
    rw [unpack_setbalance hbounds, unpack_setchild, unpack_setparent (pointer_getD habove).2]
  show AvlNode.mk (fun d => pointer (((t.node a).child d).getD 0#64)) (pointer (unpack (packNode (t.node a))).parent)
    (unpack (packNode (t.node a))).child (unpack (packNode (t.node a))).balance = t.node a
  rw [hword]
  refine AvlNode.ext ?_ (pointer_getD habove).1 rfl rfl
  funext d
  exact (pointer_getD (hchild d)).1

end

end IndexFs.Avl
