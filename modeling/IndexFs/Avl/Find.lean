import IndexFs.Avl.Insert

/-!
# Searches and walks in an AVL tree

`avl_walk`, `avl_first`, `avl_last`, `avl_nearest` and `avl_find` of `public/avl.c` (lines
138–296). A search that fails leaves an index, the node where it fell off the tree and
the side. `avl_nearest` finds the neighbours of such a place.

Results:

* `avlWalk_spec`: the next node in a direction, along the parents where there is no child.
* `avlFirst_spec`, `avlLast_spec`: the first and the last node.
* `avlFind_spec`: a node that compares equal, or the place where one belongs.
* `avlNearest_spec`: the nodes next to a place.

The loops follow one way down or up the tree, so that `Nat.fib` bounds how often they run
(`height_lt_of_fib`).
-/

namespace IndexFs.Avl

open BalancedTree

variable {ι : Type}

/-! ## Model of the code -/

/-- `AVL_BEFORE` and `AVL_AFTER`. -/
def avlBefore : Bool := false

def avlAfter : Bool := true

/-- The first loop of `avl_walk` (lines 160–163): down along one side. -/
def walkDown (right : Bool) : (fuel : ℕ) → ι → AvlM ι ι
  | 0, _ => throw .fuel
  | fuel + 1, p => do
    match ← avlChild p right with
    | some q => walkDown right fuel q
    | none => return p

/-- The second loop of `avl_walk` (lines 168–175): up until the node was a child on the side `right`. -/
def walkUp (right : Bool) : (fuel : ℕ) → ι → AvlM ι (Option ι)
  | 0, _ => throw .fuel
  | fuel + 1, p => do
    let wasChild ← avlXchild p
    match ← avlXparent p with
    | none => return none
    | some q => if wasChild = right then return some q else walkUp right fuel q

/-- `avl_walk` (lines 138–179). -/
def avlWalk (fuel : ℕ) (oldnode : ι) (left : Bool) : AvlM ι (Option ι) := do
  let right := !left
  match ← avlChild oldnode left with
  | some q => return some (← walkDown right fuel q)
  | none => walkUp right fuel oldnode

/-- The loop of `avl_first` and `avl_last`. -/
def endLoop (child : Bool) : (fuel : ℕ) → (p prev : Option ι) → AvlM ι (Option ι)
  | 0, _, _ => throw .fuel
  | _ + 1, none, prev => return prev
  | fuel + 1, some p, _ => do endLoop child fuel (← avlChild p child) (some p)

/-- `avl_first` (lines 185–198). -/
def avlFirst (fuel : ℕ) : AvlM ι (Option ι) := do endLoop false fuel (← get).root none

/-- `avl_last` (lines 204–217). -/
def avlLast (fuel : ℕ) : AvlM ι (Option ι) := do endLoop true fuel (← get).root none

/-- `avl_nearest` (lines 228–245). -/
def avlNearest (fuel : ℕ) (place : AvlIndex ι) (direction : Bool) : AvlM ι (Option ι) := do
  match place.1 with
  | none => do
    avlAssert ((← get).root.isNone)
    return none
  | some p => if place.2 ≠ direction then return some p else avlWalk fuel p direction

/-- What `avl_find` returns, and what it writes to `*where` if that is `NULL`. -/
inductive AvlFound (ι : Type)
  | node (p : ι)
  | place (w : AvlIndex ι)

/-- The loop of `avl_find` (lines 266–295). -/
def findLoop (compare : ι → ℤ) : (fuel : ℕ) → (p prev : Option ι) → (child : Bool) → AvlM ι (AvlFound ι)
  | 0, _, _, _ => throw .fuel
  | _ + 1, none, prev, child => return .place (prev, child)
  | fuel + 1, some p, _, _ => do
    let diff := compare p
    avlAssert (-1 ≤ diff ∧ diff ≤ 1)
    if diff = 0 then return .node p
    else
      let child ← avlBalance2child (1 + diff)
      findLoop compare fuel (← avlChild p child) (some p) child

/-- `avl_find` (lines 257–296). The function gets the value compared with a node. -/
def avlFind (fuel : ℕ) (compare : ι → ℤ) : AvlM ι (AvlFound ι) := do
  findLoop compare fuel (← get).root none false

/-! ## Neighbours -/

open BinaryTree

/-- The element of a list on the side `d` of a position that is next to it. -/
def nearest (d : Bool) (l : List ι) : Option ι :=
  match d with
  | false => l.getLast?
  | true => l.head?

section

variable {d : Bool} {a : ι} {l r : List ι} {s x y : BinaryTree ι} {c : List (Frame ι)} {k : ℕ}

@[simp] theorem nearest_nil : nearest d ([] : List ι) = none := by cases d <;> rfl

theorem nearest_along : nearest d (along d l r) = (nearest d r).or (nearest d l) := by
  cases d with
  | false => exact List.getLast?_append
  | true => exact List.head?_append

@[simp] theorem nearest_singleton : nearest d [a] = some a := by cases d <;> rfl

/-- The node at the end of the way along one side of a subtree that lies on the other side. -/
theorem nearest_spine (hside : ∀ f ∈ c, f.side = !d) :
    nearest d (inorder (plug c (branch (!d) a nil x))) = some a := by
  have hnone := beyond_spine hside
  rw [inorder_plug (!d), hnone, nil_along, Bool.not_not, along_not, nearest_along, inorder_branch, inorder, nil_along,
    along_not, nearest_along, nearest_singleton, Option.some_or, Option.some_or]

end

/-! ## Walks -/

section Walks

variable {t : AvlTree ι} {d : Bool} {a p : ι} {q : Option ι} {e : Bool} {s x y : BinaryTree ι} {c : List (Frame ι)} {k fuel : ℕ}

/-- Down along one side of a linked subtree. -/
theorem walkDown_spec (h : Linked t.node q e x) (hx : rootOf x = some p) (hfuel : x.height ≤ fuel) :
    Ends (walkDown d fuel p) t
      (fun r T => T = t ∧ ∃ c z, x = plug c (branch d r nil z) ∧ ∀ f ∈ c, f.side = d) (fun _ _ => False) := by
  induction fuel generalizing x p q e with
  | zero =>
    cases x with
    | nil => cases hx
    | node b l r => exact absurd hfuel (Nat.not_succ_le_zero _)
  | succ fuel ih =>
    have hne : x ≠ nil := by
      rintro rfl
      cases hx
    obtain ⟨b, y, z, rfl⟩ := exists_branch d hne
    rw [rootOf_branch] at hx
    cases hx
    rw [height_branch] at hfuel
    obtain ⟨hy, -, -, -, -, hly, -⟩ := linked_branch.mp h
    unfold walkDown
    rw [ends_bind, ends_avlChild, hy]
    cases hroot : rootOf y with
    | none =>
      rw [rootOf_eq_none.mp hroot]
      exact ⟨rfl, [], z, rfl, fun f hf => by cases hf⟩
    | some g =>
      refine (ih hly hroot (by omega)).mono (fun r T hpost => ?_) fun _ _ => id
      obtain ⟨rfl, c, w, rfl, hside⟩ := hpost
      refine ⟨rfl, c ++ [⟨d, p, z⟩], w, ?_, fun f hf => ?_⟩
      · rw [plug_append]
        rfl
      · rcases List.mem_append.mp hf with hf | hf
        · exact hside f hf
        · rw [List.mem_singleton.mp hf]

/-- Up to the first node that lies in the direction of the walk. -/
theorem walkUp_spec (hparent : (t.node p).parent = parentOf none c) (hindex : (t.node p).childIndex = indexOf false c)
    (h : Above t.node none false k q c) (hfuel : c.length < fuel) :
    Ends (walkUp (!d) fuel p) t (fun r T => T = t ∧ r = nearest d (beyond d c)) (fun _ _ => False) := by
  induction fuel generalizing p k q c with
  | zero => exact absurd hfuel (Nat.not_lt_zero _)
  | succ fuel ih =>
    unfold walkUp
    rw [ends_bind, ends_avlXchild, ends_bind, ends_avlXparent, hparent, hindex]
    cases c with
    | nil =>
      refine ⟨rfl, ?_⟩
      exact nearest_nil.symm
    | cons f c =>
      obtain ⟨-, -, hfp, hfi, -, -, habove⟩ := h
      show Ends (if f.side = !d then _ else _) _ _ _
      unfold beyond
      split_ifs with hside hsame hsame
      · exact absurd (hside.symm.trans hsame) (Bool.not_ne_self d)
      · refine ⟨rfl, ?_⟩
        rw [nearest_along, nearest_along, nearest_singleton, Option.some_or, Option.some_or]
      · rw [along_nil]
        rw [List.length_cons] at hfuel
        exact ih hfp hfi habove (by omega)
      · exact absurd (Bool.eq_not_of_ne hsame) hside

/-- `avl_walk` finds the next node in the direction. -/
theorem avlWalk_spec (h : Holds t (plug c (branch d a x y))) (hfuel : (plug c (branch d a x y)).height < fuel) :
    Ends (avlWalk fuel a d) t (fun r T => T = t ∧ r = nearest d (along d (beyond d c) (inorder x))) (fun _ _ => False) := by
  obtain ⟨hstands, -⟩ := h.stands
  obtain ⟨hx, -, hparent, hindex, -, hlx, -⟩ := linked_branch.mp hstands.linked
  have hlength : c.length + (branch d a x y).height ≤ (plug c (branch d a x y)).height := length_le_height
  rw [height_branch] at hlength
  unfold avlWalk
  rw [ends_bind, ends_avlChild, hx, nearest_along]
  cases hroot : rootOf x with
  | none =>
    rw [rootOf_eq_none.mp hroot, inorder, nearest_nil, Option.none_or]
    exact walkUp_spec hparent hindex hstands.hole.above (by omega)
  | some g =>
    refine Ends.bind ((walkDown_spec hlx hroot (by omega)).mono (fun r T hpost => ?_) fun _ _ => id)
    obtain ⟨rfl, c', z, rfl, hside⟩ := hpost
    refine ⟨rfl, ?_⟩
    rw [nearest_spine hside, Option.some_or]

/-- The end of a tree in a direction. -/
theorem endLoop_spec (h : Linked t.node q e x) (hfuel : x.height < fuel) :
    Ends (endLoop d fuel (rootOf x) q) t
      (fun r T => T = t ∧ r = (nearest (!d) (inorder x)).or q) (fun _ _ => False) := by
  induction fuel generalizing x q e with
  | zero => exact absurd hfuel (Nat.not_lt_zero _)
  | succ fuel ih =>
    by_cases hne : x = nil
    · rw [hne]
      refine ⟨rfl, ?_⟩
      rw [inorder, nearest_nil, Option.none_or]
    · obtain ⟨a, y, z, rfl⟩ := exists_branch d hne
      rw [height_branch] at hfuel
      obtain ⟨hy, -, -, -, -, hly, -⟩ := linked_branch.mp h
      rw [rootOf_branch]
      unfold endLoop
      rw [ends_bind, ends_avlChild, hy]
      refine (ih hly (by omega)).mono (fun r T hpost => ?_) fun _ _ => id
      obtain ⟨rfl, rfl⟩ := hpost
      refine ⟨rfl, ?_⟩
      have horder : inorder (branch d a y z) = along (!d) (along (!d) (inorder z) [a]) (inorder y) := by
        rw [inorder_branch, along_not, along_not]
      rw [horder, nearest_along, nearest_along, nearest_singleton, Option.some_or, Option.or_assoc, Option.some_or]

theorem avlFirst_spec (h : Holds t s) (hfuel : s.height < fuel) :
    Ends (avlFirst fuel) t (fun r T => T = t ∧ r = (inorder s).head?) (fun _ _ => False) := by
  unfold avlFirst
  rw [ends_bind, ends_get, h.root]
  refine (endLoop_spec h.linked hfuel).mono (fun r T hpost => ?_) fun _ _ => id
  rwa [Option.or_none] at hpost

theorem avlLast_spec (h : Holds t s) (hfuel : s.height < fuel) :
    Ends (avlLast fuel) t (fun r T => T = t ∧ r = (inorder s).getLast?) (fun _ _ => False) := by
  unfold avlLast
  rw [ends_bind, ends_get, h.root]
  have hlinked : Linked t.node none false s := h.linked
  refine (endLoop_spec hlinked hfuel).mono (fun r T hpost => ?_) fun _ _ => id
  rwa [Option.or_none] at hpost

/-- `avl_nearest` finds the node next to a free place, on either side. -/
theorem avlNearest_spec (h : Holds t (plug c nil)) (hfuel : (plug c (nil : BinaryTree ι)).height < fuel) :
    Ends (avlNearest fuel (parentOf none c, indexOf false c) d) t (fun r T => T = t ∧ r = nearest d (beyond d c))
      (fun _ _ => False) := by
  unfold avlNearest
  cases c with
  | nil =>
    have hroot : t.root = none := h.root
    show Ends (_ >>= _) _ _ _
    rw [ends_bind, ends_get]
    show Ends (_ >>= _) _ _ _
    rw [ends_bind, ends_avlAssert (by rw [hroot]; rfl)]
    exact ⟨rfl, nearest_nil.symm⟩
  | cons f c =>
    show Ends (if f.side ≠ d then _ else _) _ _ _
    unfold beyond
    by_cases hside : f.side = d
    · have hwalk := avlWalk_spec h hfuel (d := f.side)
      rw [inorder, along_nil, hside] at hwalk
      rw [if_neg (not_not.mpr hside), if_pos hside, along_nil]
      exact hwalk
    · rw [if_pos hside, if_neg hside]
      refine ⟨rfl, ?_⟩
      rw [nearest_along, nearest_along, nearest_singleton, Option.some_or, Option.some_or]

end Walks

/-! ## Searches -/

section Searches

variable {t : AvlTree ι} {a : ι} {s x : BinaryTree ι} {c : List (Frame ι)} {fuel : ℕ} {compare : ι → ℤ} {l : List ι}

/-- The comparisons fit the order of the list: what is searched for lies behind elements that give `1` and before
elements that give `-1`. -/
def Directs (compare : ι → ℤ) (l : List ι) : Prop :=
  (∀ a ∈ l, -1 ≤ compare a ∧ compare a ≤ 1) ∧ l.Pairwise fun a b => compare b ≤ compare a

/-- The free place of a tree that a search leads to. -/
def FreePlace (compare : ι → ℤ) (s : BinaryTree ι) (w : AvlIndex ι) : Prop :=
  ∃ c, s = plug c nil ∧ w = (parentOf none c, indexOf false c) ∧ (∀ a ∈ beyond false c, compare a = 1) ∧
    ∀ a ∈ beyond true c, compare a = -1

/-- What a search comes to. -/
def Found (compare : ι → ℤ) (s : BinaryTree ι) : AvlFound ι → Prop
  | .node p => p ∈ inorder s ∧ compare p = 0
  | .place w => FreePlace compare s w

theorem Directs.around {r : BinaryTree ι} (h : Directs compare (inorder (plug c (node a x r)))) :
    (-1 ≤ compare a ∧ compare a ≤ 1) ∧ (∀ z ∈ inorder x, compare a ≤ compare z ∧ compare z ≤ 1) ∧
      ∀ z ∈ inorder r, compare z ≤ compare a ∧ -1 ≤ compare z := by
  obtain ⟨hbounds, horder⟩ := h
  have hmem : ∀ z, z ∈ inorder x ++ a :: inorder r → -1 ≤ compare z ∧ compare z ≤ 1 := fun z hz =>
    hbounds z (inorder_plug_perm.mem_iff.mpr (List.mem_append_left _ hz))
  rw [inorder_plug false] at horder
  have hmid := (List.pairwise_append.mp (List.pairwise_append.mp horder).2.1).1
  obtain ⟨-, hright, hleft⟩ := List.pairwise_append.mp hmid
  refine ⟨hmem a (by simp), fun z hz => ⟨?_, (hmem z (by simp [hz])).2⟩, fun z hz => ⟨?_, (hmem z (by simp [hz])).1⟩⟩
  · exact hleft z hz a List.mem_cons_self
  · exact List.rel_of_pairwise_cons hright hz

theorem findLoop_spec (h : Holds t (plug c x)) (hc : Directs compare (inorder (plug c x)))
    (hbefore : ∀ a ∈ beyond false c, compare a = 1) (hbehind : ∀ a ∈ beyond true c, compare a = -1)
    (hfuel : x.height < fuel) :
    Ends (findLoop compare fuel (rootOf x) (parentOf none c) (indexOf false c)) t
      (fun r T => T = t ∧ Found compare (plug c x) r) (fun _ _ => False) := by
  induction fuel generalizing x c with
  | zero => exact absurd hfuel (Nat.not_lt_zero _)
  | succ fuel ih =>
    cases x with
    | nil => exact ⟨rfl, c, rfl, rfl, hbefore, hbehind⟩
    | node a l r =>
      obtain ⟨hstands, -⟩ := h.stands
      obtain ⟨hl, hr, -⟩ := hstands.linked
      obtain ⟨⟨hlow, hhigh⟩, hleft, hright⟩ := hc.around
      have hheight : max l.height r.height + 1 < fuel + 1 := hfuel
      show Ends (findLoop compare (fuel + 1) (some a) _ _) _ _ _
      unfold findLoop
      dsimp only
      rw [ends_bind, ends_avlAssert ⟨hlow, hhigh⟩]
      split_ifs with hzero
      · exact ⟨rfl, inorder_plug_perm.mem_iff.mpr (by simp [inorder]), hzero⟩
      · rw [ends_bind]
        obtain hside | hside : compare a = -1 ∨ compare a = 1 := by omega
        · rw [hside]
          show Ends (avlChild a false >>= _) _ _ _
          rw [ends_bind, ends_avlChild, hl]
          refine ih (c := ⟨false, a, r⟩ :: c) h hc (fun z hz => ?_) (fun z hz => ?_) (by omega)
          · rcases mem_beyond_cons.mp hz with hz | ⟨hne, -⟩
            · exact hbefore z hz
            · exact absurd rfl hne
          · rcases mem_beyond_cons.mp hz with hz | ⟨-, rfl | hz⟩
            · exact hbehind z hz
            · exact hside
            · have hz := hright z hz
              omega
        · rw [hside]
          show Ends (avlChild a true >>= _) _ _ _
          rw [ends_bind, ends_avlChild, hr]
          refine ih (c := ⟨true, a, l⟩ :: c) h hc (fun z hz => ?_) (fun z hz => ?_) (by omega)
          · rcases mem_beyond_cons.mp hz with hz | ⟨-, rfl | hz⟩
            · exact hbefore z hz
            · exact hside
            · have hz := hleft z hz
              omega
          · rcases mem_beyond_cons.mp hz with hz | ⟨hne, -⟩
            · exact hbehind z hz
            · exact absurd rfl hne

/-- `avl_find` finds a node that compares equal, or the place for one. -/
theorem avlFind_spec (h : Holds t s) (hc : Directs compare (inorder s)) (hfuel : s.height < fuel) :
    Ends (avlFind fuel compare) t (fun r T => T = t ∧ Found compare s r) (fun _ _ => False) := by
  unfold avlFind
  rw [ends_bind, ends_get, h.root]
  have hholds : Holds t (plug [] s) := h
  exact findLoop_spec hholds hc (fun _ hz => by cases hz) (fun _ hz => by cases hz) hfuel

/-- A tree is low enough for a number of rounds if it has fewer nodes than the thinnest one that is too high. -/
theorem height_lt_of_fib (h : IsBalanced s) (hfib : s.numNodes + 1 < Nat.fib (fuel + 2)) : s.height < fuel := by
  by_contra hle
  have hmono : Nat.fib (fuel + 2) ≤ Nat.fib (s.height + 2) := Nat.fib_mono (by omega)
  have hnodes := fib_height_le h
  omega

end Searches

end IndexFs.Avl
