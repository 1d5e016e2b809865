import Mathlib

/-!
# Height-balanced binary trees and positions in them

A side is a `Bool`, `false` for the left one. `branch d a x y` has `x` on the side `d`
and `y` on the other, so that what is said of one side is said of both. A position in
a tree is the list of the nodes above it, the nearest first (`Frame`); `plug` puts a
tree there.

* `inorder_branch`, `inorder_plug`: the elements of a tree from left to right.
* `isBalanced_plug`: a balanced tree is a balanced subtree in balanced surroundings.
* `fib_height_le`: a balanced tree of height `h` has at least `fib (h + 2) - 1` nodes.
-/

namespace IndexFs.BalancedTree

open BinaryTree

variable {α : Type}

/-! ## Sides -/

/-- `1` for the right side, `-1` for the left one. -/
def sign : Bool → ℤ
  | false => -1
  | true => 1

@[simp] theorem sign_not (d : Bool) : sign (!d) = -sign d := by cases d <;> rfl

/-- `l` and `r`, with `l` on the side `d`. -/
def along (d : Bool) (l r : List α) : List α :=
  match d with
  | false => l ++ r
  | true => r ++ l

theorem along_assoc (d : Bool) (l m r : List α) : along d (along d l m) r = along d l (along d m r) := by
  cases d <;> simp [along]

theorem along_not (d : Bool) (l r : List α) : along (!d) l r = along d r l := by cases d <;> rfl

@[simp] theorem along_nil (d : Bool) (l : List α) : along d l [] = l := by cases d <;> simp [along]

@[simp] theorem nil_along (d : Bool) (l : List α) : along d [] l = l := by cases d <;> simp [along]

@[simp] theorem length_along (d : Bool) (l r : List α) : (along d l r).length = l.length + r.length := by
  cases d <;> simp [along, Nat.add_comm]

theorem along_perm (d : Bool) (l r : List α) : (along d l r).Perm (l ++ r) := by
  cases d with
  | false => exact .refl _
  | true => exact List.perm_append_comm

@[simp] theorem mem_along {d : Bool} {l r : List α} {a : α} : a ∈ along d l r ↔ a ∈ l ∨ a ∈ r := by
  rw [(along_perm d l r).mem_iff, List.mem_append]

/-! ## Trees -/

/-- The elements from left to right. -/
def inorder : BinaryTree α → List α
  | nil => []
  | node a l r => inorder l ++ a :: inorder r

/-- The element at the root. -/
def rootOf : BinaryTree α → Option α
  | nil => none
  | node a _ _ => some a

/-- `a` with `x` on the side `d` and `y` on the other. -/
def branch (d : Bool) (a : α) (x y : BinaryTree α) : BinaryTree α :=
  match d with
  | false => node a x y
  | true => node a y x

/-- The heights of the two subtrees of a node are one apart at most. -/
def IsBalanced : BinaryTree α → Prop
  | nil => True
  | node _ l r => l.height ≤ r.height + 1 ∧ r.height ≤ l.height + 1 ∧ IsBalanced l ∧ IsBalanced r

/-- How much higher the right subtree is. -/
def tilt : BinaryTree α → ℤ
  | nil => 0
  | node _ l r => r.height - l.height

variable {d : Bool} {a : α} {x y t : BinaryTree α}

theorem branch_not (d : Bool) (a : α) (x y : BinaryTree α) : branch (!d) a x y = branch d a y x := by
  cases d <;> rfl

@[simp] theorem rootOf_branch : rootOf (branch d a x y) = some a := by cases d <;> rfl

@[simp] theorem rootOf_eq_none : rootOf t = none ↔ t = nil := by cases t <;> simp [rootOf]

theorem rootOf_mem (h : rootOf t = some a) : a ∈ inorder t := by
  cases t with
  | nil => cases h
  | node b l r =>
    cases h
    exact List.mem_append_right _ List.mem_cons_self

theorem inorder_branch : inorder (branch d a x y) = along d (inorder x) (along d [a] (inorder y)) := by
  cases d <;> simp [branch, along, inorder]

theorem inorder_branch_perm : (inorder (branch d a x y)).Perm (a :: (inorder x ++ inorder y)) := by
  rw [inorder_branch]
  refine (along_perm _ _ _).trans ?_
  exact ((along_perm d [a] (inorder y)).append_left _).trans List.perm_middle

@[simp] theorem height_branch : (branch d a x y).height = max x.height y.height + 1 := by
  cases d with
  | false => rfl
  | true => exact congrArg (· + 1) (max_comm _ _)

theorem tilt_branch : tilt (branch d a x y) = sign d * (x.height - y.height) := by
  cases d <;> simp [branch, tilt, sign]

theorem length_inorder : (inorder t).length = t.numNodes := by
  induction t with
  | nil => rfl
  | node a l r ihl ihr => simp [inorder, ihl, ihr, Nat.add_assoc]

theorem isBalanced_branch : IsBalanced (branch d a x y) ↔
    x.height ≤ y.height + 1 ∧ y.height ≤ x.height + 1 ∧ IsBalanced x ∧ IsBalanced y := by
  cases d with
  | false => exact Iff.rfl
  | true =>
    show _ ∧ _ ∧ _ ∧ _ ↔ _
    tauto

/-- Every tree that is not empty is a branch, whichever side is named first. -/
theorem exists_branch (d : Bool) (h : t ≠ nil) : ∃ a x y, t = branch d a x y := by
  cases t with
  | nil => exact absurd rfl h
  | node a l r =>
    cases d with
    | false => exact ⟨a, l, r, rfl⟩
    | true => exact ⟨a, r, l, rfl⟩

theorem ne_nil_of_height (h : 0 < t.height) : t ≠ nil := by
  rintro rfl
  exact absurd h (Nat.lt_irrefl 0)

/-- A balanced tree of a height has at least as many nodes as the thinnest one. -/
theorem fib_height_le (h : IsBalanced t) : Nat.fib (t.height + 2) ≤ t.numNodes + 1 := by
  induction t with
  | nil => exact le_rfl
  | node a l r ihl ihr =>
    obtain ⟨hl, hr, hbl, hbr⟩ := h
    have hfl := ihl hbl
    have hfr := ihr hbr
    show Nat.fib (max l.height r.height + 1 + 2) ≤ l.numNodes + r.numNodes + 1 + 1
    -- the higher subtree, and the other one, which is at most one lower
    rcases Nat.le_total l.height r.height with hle | hle
    · have hlow : Nat.fib (r.height + 1) ≤ Nat.fib (l.height + 2) := Nat.fib_mono (by omega)
      have hsum : Nat.fib (r.height + 1 + 2) = Nat.fib (r.height + 1) + Nat.fib (r.height + 2) := Nat.fib_add_two
      rw [max_eq_right hle]
      omega
    · have hlow : Nat.fib (l.height + 1) ≤ Nat.fib (r.height + 2) := Nat.fib_mono (by omega)
      have hsum : Nat.fib (l.height + 1 + 2) = Nat.fib (l.height + 1) + Nat.fib (l.height + 2) := Nat.fib_add_two
      rw [max_eq_left hle]
      omega

/-! ## Positions -/

/-- A node above a position: the side on which the position lies, the node and its other subtree. -/
structure Frame (α : Type) where
  side : Bool
  label : α
  sibling : BinaryTree α

/-- The tree with `t` at the position. -/
def plug : List (Frame α) → BinaryTree α → BinaryTree α
  | [], t => t
  | f :: c, t => plug c (branch f.side f.label t f.sibling)

/-- The elements on the side `d` of the position. -/
def beyond (d : Bool) : List (Frame α) → List α
  | [] => []
  | f :: c => along d (beyond d c) (if f.side = d then [] else along d (inorder f.sibling) [f.label])

/-- The elements around the position. -/
def outside (c : List (Frame α)) : List α := beyond false c ++ beyond true c

/-- The root of the tree if `x` is the root of what is at the position. -/
def topOf : Option α → List (Frame α) → Option α
  | x, [] => x
  | _, f :: c => topOf (some f.label) c

/-- The height of the tree with a tree of height `k` at the position. -/
def heightFrom : ℕ → List (Frame α) → ℕ
  | k, [] => k
  | k, f :: c => heightFrom (max k f.sibling.height + 1) c

/-- The surroundings of the position are balanced if what is there has the height `k`. -/
def BalancedAt : ℕ → List (Frame α) → Prop
  | _, [] => True
  | k, f :: c => k ≤ f.sibling.height + 1 ∧ f.sibling.height ≤ k + 1 ∧ IsBalanced f.sibling ∧
      BalancedAt (max k f.sibling.height + 1) c

variable {f : Frame α} {b c : List (Frame α)} {k : ℕ}

@[simp] theorem topOf_nil {x : Option α} : topOf x [] = x := rfl

@[simp] theorem topOf_cons {x : Option α} : topOf x (f :: c) = topOf (some f.label) c := rfl

theorem plug_append : plug (b ++ c) t = plug c (plug b t) := by
  induction b generalizing t with
  | nil => rfl
  | cons f b ih => exact ih

theorem beyond_cons : beyond d (f :: c) =
    along d (beyond d c) (if f.side = d then [] else along d (inorder f.sibling) [f.label]) := rfl

theorem inorder_plug (d : Bool) :
    inorder (plug c t) = along d (beyond d c) (along d (inorder t) (beyond (!d) c)) := by
  induction c generalizing t with
  | nil => simp [plug, beyond]
  | cons f c ih =>
    unfold plug beyond
    rw [ih, along_assoc, inorder_branch]
    by_cases hside : f.side = d
    · rw [if_pos hside, if_neg (by simp [hside]), hside]
      simp only [along_assoc, along_not, nil_along]
    · rw [if_neg hside, if_pos (Bool.eq_not_of_ne hside), Bool.eq_not_of_ne hside]
      simp only [along_assoc, along_not, along_nil]

/-- On the way along one side there is nothing beyond the position on that side. -/
theorem beyond_spine (hside : ∀ f ∈ c, f.side = d) : beyond d c = [] := by
  induction c with
  | nil => rfl
  | cons f c ih =>
    unfold beyond
    rw [if_pos (hside f List.mem_cons_self), along_nil]
    exact ih fun g hg => hside g (List.mem_cons_of_mem f hg)

theorem mem_beyond_cons : a ∈ beyond d (f :: c) ↔
    a ∈ beyond d c ∨ f.side ≠ d ∧ (a = f.label ∨ a ∈ inorder f.sibling) := by
  rw [beyond_cons, mem_along]
  split_ifs with hside
  · simp [hside]
  · simp [hside, or_comm]

theorem height_plug : (plug c t).height = heightFrom t.height c := by
  induction c generalizing t with
  | nil => rfl
  | cons f c ih =>
    unfold plug heightFrom
    rw [ih, height_branch]

theorem isBalanced_plug : IsBalanced (plug c t) ↔ IsBalanced t ∧ BalancedAt t.height c := by
  induction c generalizing t with
  | nil => exact (and_iff_left trivial).symm
  | cons f c ih =>
    unfold plug BalancedAt
    rw [ih, isBalanced_branch, height_branch]
    tauto

theorem rootOf_plug : rootOf (plug c t) = topOf (rootOf t) c := by
  induction c generalizing t with
  | nil => rfl
  | cons f c ih =>
    unfold plug topOf
    rw [ih, rootOf_branch]

/-- The elements of a tree are those at a position and those around it. -/
theorem inorder_plug_perm : (inorder (plug c t)).Perm (inorder t ++ outside c) := by
  rw [inorder_plug false]
  show (beyond false c ++ (inorder t ++ beyond true c)).Perm (inorder t ++ (beyond false c ++ beyond true c))
  exact (List.perm_append_comm_assoc _ _ _)

/-- The position may be moved up by one node. -/
theorem outside_branch_perm :
    (inorder (branch f.side f.label t f.sibling) ++ outside c).Perm (inorder t ++ outside (f :: c)) := by
  have h : (inorder (plug c (branch f.side f.label t f.sibling))).Perm _ := inorder_plug_perm
  have h' : (inorder (plug (f :: c) t)).Perm _ := inorder_plug_perm
  exact h.symm.trans h'

theorem outside_cons_perm : (outside (f :: c)).Perm (f.label :: inorder f.sibling ++ outside c) :=
  (outside_branch_perm (t := nil)).symm.trans (inorder_branch_perm.append_right _)

/-- The root of a tree with a position below it is one of the elements around the position. -/
theorem exists_topOf (f : Frame α) (c : List (Frame α)) (x : Option α) :
    ∃ a, topOf x (f :: c) = some a ∧ a ∈ outside (f :: c) := by
  induction c generalizing f x with
  | nil => exact ⟨f.label, rfl, outside_cons_perm.mem_iff.mpr List.mem_cons_self⟩
  | cons g c ih =>
    obtain ⟨a, htop, hmem⟩ := ih g (some f.label)
    exact ⟨a, htop, outside_cons_perm.mem_iff.mpr (List.mem_append_right _ hmem)⟩

theorem length_le_height : c.length + t.height ≤ (plug c t).height := by
  induction c generalizing t with
  | nil => exact (Nat.zero_add _).le
  | cons f c ih =>
    have h := ih (t := branch f.side f.label t f.sibling)
    rw [height_branch] at h
    unfold plug
    rw [List.length_cons]
    omega

/-- Every element has a position. -/
theorem exists_plug (h : a ∈ inorder t) : ∃ c l r, t = plug c (node a l r) := by
  induction t with
  | nil => cases h
  | node b l r ihl ihr =>
    unfold inorder at h
    rcases List.mem_append.mp h with h | h
    · obtain ⟨c, x, y, rfl⟩ := ihl h
      exact ⟨c ++ [⟨false, b, r⟩], x, y, by simp [plug_append, plug, branch]⟩
    · rcases List.mem_cons.mp h with rfl | h
      · exact ⟨[], l, r, rfl⟩
      · obtain ⟨c, x, y, rfl⟩ := ihr h
        exact ⟨c ++ [⟨true, b, l⟩], x, y, by simp [plug_append, plug, branch]⟩

end IndexFs.BalancedTree
