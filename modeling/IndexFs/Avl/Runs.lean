import IndexFs.Avl.Remove

/-!
# AVL trees as sorted sets

The callers of `public/avl.c` keep containers, objects and cached blocks in AVL trees:
they look one up by its key, add it at the place that the search has found, remove it and
walk over all of them. `avl_add` (lines 642–661) searches for the place itself, and fails an
`ASSERT` if there is a node with the same key. `avl_walk_all` (lines 1055–1083) reads the
next node before it calls back, so that the callback may remove the node it gets.

Results:

* `call_refines`: every call answers as a set does whose elements are sorted by their
  keys, and leaves a balanced tree with these elements.
* `avlRun_refines`: so does every run of calls. `Nat.fib` bounds the rounds of the loops.
* `avlWalkAll_visits`: a walk over a tree whose nodes are removed on the way.
* `avlInsertHere_beside`: a node is put right beside another one, without a search.
-/

namespace IndexFs.Avl

open BalancedTree

variable {ι κ : Type} [DecidableEq ι]

/-! ## Model of the code -/

/-- `avl_create` (lines 892–909), with what is in the memory. -/
def avlCreate (node : ι → AvlNode ι) : AvlTree ι := ⟨none, 0, node⟩

/-- The free place next to a node, as `avl_insert_here` looks for it (lines 613–633). -/
def placeBeside (fuel : ℕ) (here : ι) (direction : Bool) : AvlM ι (ι × Bool) := do
  match ← avlChild here direction with
  | none => return (here, direction)
  | some node => do
    let node ← walkDown (!direction) fuel node
    return (node, !direction)

/-- `avl_insert_here` (lines 582–637), without its tests under `DEBUG`. -/
def avlInsertHere (fuel : ℕ) (newData here : ι) (direction : Bool) : AvlM ι Unit := do
  let place ← placeBeside fuel here direction
  avlAssert ((← avlChild place.1 place.2).isNone)
  avlInsert fuel newData (some place.1, place.2)

/-- `avl_add` (lines 642–661). -/
def avlAdd (fuel : ℕ) (compar : ι → ι → ℤ) (newNode : ι) : AvlM ι Unit := do
  match ← avlFind fuel (compar newNode) with
  | .node _ => throw .assertion
  | .place place => avlInsert fuel newNode place

section

variable {σ : Type}

/-- The loop of `avl_walk_all` (lines 1067–1080). The callback works on `para`. -/
def walkAllLoop (fuel : ℕ) (cb : ι → σ → AvlM ι (ℤ × σ)) : (rounds : ℕ) → Option ι → σ → AvlM ι (ℤ × σ)
  | 0, _, _ => throw .fuel
  | _ + 1, none, para => return (0, para)
  | rounds + 1, some node, para => do
    let nextNode ← avlWalk fuel node avlAfter
    let r ← cb node para
    if r.1 ≠ 0 then return r
    else walkAllLoop fuel cb rounds nextNode r.2

/-- `avl_walk_all` (lines 1055–1083). -/
def avlWalkAll (fuel rounds : ℕ) (cb : ι → σ → AvlM ι (ℤ × σ)) (para : σ) : AvlM ι (ℤ × σ) := do
  if (← get).numnodes = 0 then return (0, para)
  else walkAllLoop fuel cb rounds (← avlFirst fuel) para

end

section Keys

variable [LinearOrder κ]

/-- `compare_object2` and `compare_cache2`: a key and the key of a node. -/
def compareKey (key : ι → κ) (k : κ) (p : ι) : ℤ := if key p < k then 1 else if k = key p then 0 else -1

/-- `compare_object1` and `compare_cache1`: the keys of two nodes. -/
def compareNode (key : ι → κ) (p q : ι) : ℤ := compareKey key (key p) q

/-- What a caller does with a tree. After a search that fails it may ask for the node next to the place. -/
inductive AvlCall (ι κ : Type)
  | add (p : ι)
  | remove (p : ι)
  | find (k : κ)
  | findNearest (k : κ) (direction : Bool)
  | walk (p : ι) (left : Bool)
  | first
  | last

/-- A call. `tmp` is the address of the local variable of `avl_remove`. -/
def AvlCall.run (key : ι → κ) (fuel : ℕ) (tmp : ι) : AvlCall ι κ → AvlM ι (Option ι)
  | .add p => do
    avlAdd fuel (compareNode key) p
    return none
  | .remove p => do
    avlRemove fuel tmp p
    return none
  | .find k => do
    match ← avlFind fuel (compareKey key k) with
    | .node p => return some p
    | .place _ => return none
  | .findNearest k direction => do
    match ← avlFind fuel (compareKey key k) with
    | .node p => return some p
    | .place place => avlNearest fuel place direction
  | .walk p left => avlWalk fuel p left
  | .first => avlFirst fuel
  | .last => avlLast fuel

/-- A run of calls and their answers. -/
def avlRun (key : ι → κ) (fuel : ℕ) (tmp : ι) : List (AvlCall ι κ) → AvlM ι (List (Option ι))
  | [] => return []
  | c :: cs => do
    let a ← c.run key fuel tmp
    let as ← avlRun key fuel tmp cs
    return a :: as

/-! ## Sorted sets -/

/-- The elements with smaller keys, or with larger ones. -/
def aside (key : ι → κ) (k : κ) (d : Bool) (l : List ι) : List ι :=
  match d with
  | false => l.filter (key · < k)
  | true => l.filter (k < key ·)

/-- What a call answers on a set, and the set after it. There is none if an element with the same key is added. -/
def setStep (key : ι → κ) (l : List ι) : AvlCall ι κ → Option (Option ι × List ι)
  | .add p =>
    if ∃ q ∈ l, key q = key p then none else some (none, aside key (key p) false l ++ p :: aside key (key p) true l)
  | .remove p => some (none, l.erase p)
  | .find k => some (l.find? (key · = k), l)
  | .findNearest k d => some ((l.find? (key · = k)).or (nearest d (aside key k d l)), l)
  | .walk p d => some (nearest d (aside key (key p) d l), l)
  | .first => some (l.head?, l)
  | .last => some (l.getLast?, l)

/-- A run of calls on a set. -/
def setRun (key : ι → κ) : List (AvlCall ι κ) → List ι → Option (List (Option ι) × List ι)
  | [], l => some ([], l)
  | c :: cs, l =>
    match setStep key l c with
    | none => none
    | some (a, l') => (setRun key cs l').map fun r => (a :: r.1, r.2)

/-- The caller removes an element of the set, walks on from one, and adds no node at the address `tmp`. -/
def AvlCall.Legal (tmp : ι) (l : List ι) : AvlCall ι κ → Prop
  | .add p => p ≠ tmp
  | .remove p => p ∈ l
  | .walk p _ => p ∈ l
  | _ => True

/-- The calls of a run are legal when they are made. -/
def LegalRun (key : ι → κ) (tmp : ι) : List (AvlCall ι κ) → List ι → Prop
  | [], _ => True
  | c :: cs, l => c.Legal tmp l ∧ ∀ a l', setStep key l c = some (a, l') → LegalRun key tmp cs l'

/-- The memory holds a balanced tree with the elements `l`, sorted by their keys. -/
structure HoldsSet (key : ι → κ) (tmp : ι) (t : AvlTree ι) (l : List ι) : Prop where
  holds : ∃ s, Holds t s ∧ inorder s = l
  sorted : l.Pairwise fun p q => key p < key q
  fresh : tmp ∉ l
  numnodes : t.numnodes = l.length

/-! ## One call -/

open BinaryTree

variable {key : ι → κ} {k : κ} {d : Bool} {p tmp : ι} {l r : List ι} {t : AvlTree ι} {s : BinaryTree ι} {fuel : ℕ}

section

omit [DecidableEq ι]

theorem compareKey_eq_one : compareKey key k p = 1 ↔ key p < k := by
  unfold compareKey
  split_ifs <;> simp_all

theorem compareKey_eq_zero : compareKey key k p = 0 ↔ key p = k := by
  unfold compareKey
  split_ifs with hlt heq
  · simp [hlt.ne]
  · simp [heq]
  · simp [Ne.symm heq]

theorem compareKey_eq_neg : compareKey key k p = -1 ↔ k < key p := by
  unfold compareKey
  split_ifs with hlt heq
  · simp [hlt.le]
  · simp [heq]
  · simpa using lt_of_le_of_ne (not_lt.mp hlt) heq

theorem compareKey_bounds : -1 ≤ compareKey key k p ∧ compareKey key k p ≤ 1 := by
  unfold compareKey
  split_ifs <;> omega

theorem directs_of_sorted (h : l.Pairwise fun p q => key p < key q) : Directs (compareKey key k) l := by
  refine ⟨fun p _ => compareKey_bounds, h.imp fun {p q} hpq => ?_⟩
  rcases lt_trichotomy (key q) k with hlt | heq | hgt
  · rw [compareKey_eq_one.mpr hlt, compareKey_eq_one.mpr (hpq.trans hlt)]
  · rw [compareKey_eq_zero.mpr heq, compareKey_eq_one.mpr (heq ▸ hpq)]
    decide
  · rw [compareKey_eq_neg.mpr hgt]
    exact compareKey_bounds.1

/-- The two sides of a key in a list that is cut there. -/
theorem aside_append (hl : ∀ q ∈ l, key q < k) (hr : ∀ q ∈ r, k < key q) (d : Bool) :
    aside key k d (l ++ r) = bif d then r else l := by
  cases d with
  | false =>
    show List.filter _ _ = l
    rw [List.filter_append, List.filter_eq_self.mpr (by simpa using hl), List.filter_eq_nil_iff.mpr, List.append_nil]
    intro q hq
    simpa using (hr q hq).le
  | true =>
    show List.filter _ _ = r
    rw [List.filter_append, List.filter_eq_nil_iff.mpr, List.nil_append, List.filter_eq_self.mpr (by simpa using hr)]
    intro q hq
    simpa using (hl q hq).le

theorem length_aside_le : (aside key k false l).length + (aside key k true l).length ≤ l.length := by
  show (List.filter _ l).length + (List.filter _ l).length ≤ _
  rw [← List.countP_eq_length_filter, ← List.countP_eq_length_filter]
  have hsplit := List.length_eq_countP_add_countP (fun q => decide (key q < k)) (l := l)
  have hle : l.countP (fun q => decide (k < key q)) ≤ l.countP (fun q => decide ¬decide (key q < k) = true) :=
    List.countP_mono_left fun q _ hq => by simpa using (of_decide_eq_true hq).le
  omega

/-- The two sides of an element. -/
theorem aside_middle (h : (l ++ p :: r).Pairwise fun p q => key p < key q) (d : Bool) :
    aside key (key p) d (l ++ p :: r) = bif d then r else l := by
  obtain ⟨-, hr, hl⟩ := List.pairwise_append.mp h
  have hlp : ∀ q ∈ l, key q < key p := fun q hq => hl q hq p List.mem_cons_self
  have hpr : ∀ q ∈ r, key p < key q := fun q hq => List.rel_of_pairwise_cons hr hq
  have hself : aside key (key p) d (l ++ p :: r) = aside key (key p) d (l ++ r) := by
    cases d <;> simp [aside]
  rw [hself, aside_append hlp hpr]

theorem find_append (hl : ∀ q ∈ l, key q ≠ k) (hr : ∀ q ∈ r, key q ≠ k) : (l ++ r).find? (key · = k) = none := by
  rw [List.find?_eq_none]
  intro q hq
  rcases List.mem_append.mp hq with hq | hq
  · simpa using hl q hq
  · simpa using hr q hq

theorem find_of_mem (h : l.Pairwise fun p q => key p < key q) (hp : p ∈ l) : l.find? (key · = key p) = some p := by
  obtain ⟨b, c, rfl⟩ := List.append_of_mem hp
  obtain ⟨-, -, hb⟩ := List.pairwise_append.mp h
  rw [List.find?_append, List.find?_eq_none.mpr, Option.none_or, List.find?_cons_of_pos (by simp)]
  intro q hq
  simpa using (hb q hq p List.mem_cons_self).ne

theorem avlCreate_holdsSet {node : ι → AvlNode ι} : HoldsSet key tmp (avlCreate node) [] where
  holds := ⟨nil, ⟨rfl, trivial, trivial⟩, rfl⟩
  sorted := .nil
  fresh := List.not_mem_nil
  numnodes := rfl

theorem HoldsSet.nodup (h : HoldsSet key tmp t l) : (tmp :: l).Nodup :=
  List.nodup_cons.mpr ⟨h.fresh, h.sorted.imp fun hpq heq => hpq.ne (congrArg key heq)⟩

/-- A tree is low enough for a number of rounds. -/
theorem Holds.height_lt (hs : Holds t s) (hl : inorder s = l) (hfuel : l.length + 1 < Nat.fib (fuel + 2)) :
    s.height < fuel := by
  rw [← hl, length_inorder] at hfuel
  exact height_lt_of_fib hs.balanced hfuel

end

/-- A search leads to the node with the key, or to the free place between the smaller and the larger ones. -/
def Sought (key : ι → κ) (fuel : ℕ) (t : AvlTree ι) (l : List ι) (k : κ) : AvlFound ι → Prop
  | .node p => p ∈ l ∧ key p = k
  | .place w =>
    ∃ c, Holds t (plug c nil) ∧ w = (parentOf none c, indexOf false c) ∧ l = beyond false c ++ beyond true c ∧
      (plug c (nil : BinaryTree ι)).height < fuel ∧ (∀ q ∈ beyond false c, key q < k) ∧ ∀ q ∈ beyond true c, k < key q

omit [DecidableEq ι] in
theorem HoldsSet.search (h : HoldsSet key tmp t l) (hfuel : l.length + 1 < Nat.fib (fuel + 2)) (k : κ) :
    Ends (avlFind fuel (compareKey key k)) t (fun r T => T = t ∧ Sought key fuel t l k r) (fun _ _ => False) := by
  obtain ⟨s, hs, hl⟩ := h.holds
  have hheight := hs.height_lt hl hfuel
  have hsorted := h.sorted
  rw [← hl] at hsorted
  refine (avlFind_spec hs (directs_of_sorted hsorted) hheight).mono (fun r T hpost => ⟨hpost.1, ?_⟩) fun _ _ => id
  obtain ⟨rfl, hfound⟩ := hpost
  cases r with
  | node p =>
    obtain ⟨hp, hzero⟩ := hfound
    exact ⟨hl ▸ hp, compareKey_eq_zero.mp hzero⟩
  | place w =>
    obtain ⟨c, rfl, hw, hbefore, hbehind⟩ := hfound
    refine ⟨c, hs, hw, ?_, hheight, fun q hq => compareKey_eq_one.mp (hbefore q hq),
      fun q hq => compareKey_eq_neg.mp (hbehind q hq)⟩
    rw [← hl, inorder_plug false]
    rfl

/-- A node with a new key is added between the smaller and the larger ones. -/
theorem HoldsSet.add (h : HoldsSet key tmp t l) (hp : p ≠ tmp) (hfuel : l.length + 1 < Nat.fib (fuel + 2)) :
    Ends (avlAdd fuel (compareNode key) p) t
      (fun _ T => (∀ q ∈ l, key q ≠ key p) ∧
        HoldsSet key tmp T (aside key (key p) false l ++ p :: aside key (key p) true l))
      (fun e _ => e = .assertion ∧ ∃ q ∈ l, key q = key p) := by
  unfold avlAdd
  refine (h.search hfuel (key p)).seq' (fun r T hpost => ?_) fun _ _ => False.elim
  obtain ⟨rfl, hr⟩ := hpost
  cases r with
  | node q => exact ⟨rfl, q, hr⟩
  | place w =>
    obtain ⟨c, hholds, rfl, hl, hheight, hbefore, hbehind⟩ := hr
    have hnew : ∀ q ∈ l, key q ≠ key p := by
      intro q hq
      rw [hl] at hq
      rcases List.mem_append.mp hq with hq | hq
      · exact (hbefore q hq).ne
      · exact (hbehind q hq).ne'
    have hpl : p ∉ l := fun hmem => hnew p hmem rfl
    have hlength : c.length + (nil : BinaryTree ι).height ≤ (plug c (nil : BinaryTree ι)).height := length_le_height
    have hnodup : (p :: outside c).Nodup := by
      show (p :: (beyond false c ++ beyond true c)).Nodup
      rw [← hl]
      exact List.nodup_cons.mpr ⟨hpl, (List.nodup_cons.mp h.nodup).2⟩
    refine (avlInsert_spec hholds hnodup (by omega)).mono (fun _ T hpost => ⟨hnew, ?_⟩) fun _ _ => False.elim
    obtain ⟨-, hcount, y, hy, horder⟩ := hpost
    have hfalse : aside key (key p) false l = beyond false c := by
      rw [hl, aside_append hbefore hbehind]
      rfl
    have htrue : aside key (key p) true l = beyond true c := by
      rw [hl, aside_append hbefore hbehind]
      rfl
    rw [hfalse, htrue]
    have hsorted := h.sorted
    have hfresh := h.fresh
    rw [hl] at hsorted hfresh
    refine ⟨⟨y, hy, ?_⟩, ?_, ?_, ?_⟩
    · rw [horder, inorder_plug false]
      rfl
    · obtain ⟨hb, ha, hba⟩ := List.pairwise_append.mp hsorted
      refine List.pairwise_append.mpr ⟨hb, List.pairwise_cons.mpr ⟨hbehind, ha⟩, fun q hq z hz => ?_⟩
      rcases List.mem_cons.mp hz with rfl | hz
      · exact hbefore q hq
      · exact hba q hq z hz
    · simp only [List.mem_append, List.mem_cons, not_or] at hfresh ⊢
      exact ⟨hfresh.1, hp.symm, hfresh.2⟩
    · rw [hcount, h.numnodes, hl]
      simp only [List.length_append, List.length_cons]
      omega

theorem HoldsSet.remove (h : HoldsSet key tmp t l) (hp : p ∈ l) (hfuel : l.length + 1 < Nat.fib (fuel + 2)) :
    Ends (avlRemove fuel tmp p) t (fun _ T => HoldsSet key tmp T (l.erase p)) (fun _ _ => False) := by
  obtain ⟨s, hs, rfl⟩ := h.holds
  have hcount : 0 < t.numnodes := h.numnodes ▸ List.length_pos_of_mem hp
  refine (avlRemove_spec hs hp h.nodup hcount (hs.height_lt rfl hfuel)).mono (fun _ T hpost => ?_) fun _ _ => id
  obtain ⟨-, hnumnodes, y, hy, horder⟩ := hpost
  refine ⟨⟨y, hy, horder⟩, h.sorted.sublist List.erase_sublist, fun hmem => h.fresh (List.mem_of_mem_erase hmem), ?_⟩
  rw [hnumnodes, h.numnodes, List.length_erase_of_mem hp]

omit [DecidableEq ι] in
theorem HoldsSet.walk (h : HoldsSet key tmp t l) (hp : p ∈ l) (hfuel : l.length + 1 < Nat.fib (fuel + 2)) (d : Bool) :
    Ends (avlWalk fuel p d) t (fun r T => T = t ∧ r = nearest d (aside key (key p) d l)) (fun _ _ => False) := by
  obtain ⟨s, hs, rfl⟩ := h.holds
  have hheight := hs.height_lt rfl hfuel
  have hsorted := h.sorted
  obtain ⟨c, x, y, rfl⟩ := exists_plug hp
  rw [inorder_plug false] at hsorted ⊢
  have hcut : along false (beyond false c) (along false (inorder (node p x y)) (beyond (!false) c)) =
      (beyond false c ++ inorder x) ++ p :: (inorder y ++ beyond true c) := by
    simp [along, inorder]
  rw [hcut] at hsorted ⊢
  rw [aside_middle hsorted]
  cases d with
  | false => exact avlWalk_spec (d := false) hs hheight
  | true => exact avlWalk_spec (d := true) hs hheight

/-- Every call does what it does on a set. -/
theorem call_refines {c : AvlCall ι κ} (h : HoldsSet key tmp t l) (hc : c.Legal tmp l)
    (hfuel : l.length + 1 < Nat.fib (fuel + 2)) :
    Ends (c.run key fuel tmp) t
      (fun a T => ∃ l', setStep key l c = some (a, l') ∧ HoldsSet key tmp T l' ∧ l'.length ≤ l.length + 1)
      (fun e _ => e = .assertion ∧ setStep key l c = none) := by
  cases c with
  | add p =>
    refine (h.add hc hfuel).seq' (fun _ T hpost => ?_) fun e T hpost => ⟨hpost.1, if_pos hpost.2⟩
    obtain ⟨hnew, hT⟩ := hpost
    refine ⟨_, if_neg ?_, hT, ?_⟩
    · rintro ⟨q, hq, heq⟩
      exact hnew q hq heq
    · rw [List.length_append, List.length_cons]
      have hcut : (aside key (key p) false l).length + (aside key (key p) true l).length ≤ l.length := length_aside_le
      omega
  | remove p =>
    refine (h.remove hc hfuel).seq' (fun _ T hT => ?_) fun _ _ => False.elim
    exact ⟨_, rfl, hT, List.length_erase_le.trans (Nat.le_succ _)⟩
  | find k =>
    refine (h.search hfuel k).seq' (fun r T hpost => ?_) fun _ _ => False.elim
    obtain ⟨rfl, hr⟩ := hpost
    cases r with
    | node p =>
      obtain ⟨hp, rfl⟩ := hr
      refine ⟨l, ?_, h, Nat.le_succ _⟩
      dsimp only [setStep]
      rw [find_of_mem h.sorted hp]
    | place w =>
      obtain ⟨c, -, -, hl, -, hbefore, hbehind⟩ := hr
      refine ⟨l, ?_, h, Nat.le_succ _⟩
      dsimp only [setStep]
      rw [hl, find_append (fun q hq => (hbefore q hq).ne) fun q hq => (hbehind q hq).ne']
  | findNearest k d =>
    refine (h.search hfuel k).seq' (fun r T hpost => ?_) fun _ _ => False.elim
    obtain ⟨rfl, hr⟩ := hpost
    cases r with
    | node p =>
      obtain ⟨hp, rfl⟩ := hr
      refine ⟨l, ?_, h, Nat.le_succ _⟩
      dsimp only [setStep]
      rw [find_of_mem h.sorted hp, Option.some_or]
    | place w =>
      obtain ⟨c, hholds, rfl, hl, hheight, hbefore, hbehind⟩ := hr
      refine (avlNearest_spec hholds hheight).mono (fun r T hpost => ?_) fun _ _ => False.elim
      obtain ⟨rfl, rfl⟩ := hpost
      refine ⟨l, ?_, h, Nat.le_succ _⟩
      dsimp only [setStep]
      rw [hl, find_append (fun q hq => (hbefore q hq).ne) fun q hq => (hbehind q hq).ne', Option.none_or,
        aside_append hbefore hbehind]
      cases d <;> rfl
  | walk p d =>
    refine (h.walk hc hfuel d).mono (fun r T hpost => ?_) fun _ _ => False.elim
    obtain ⟨rfl, rfl⟩ := hpost
    exact ⟨l, rfl, h, Nat.le_succ _⟩
  | first =>
    obtain ⟨s, hs, rfl⟩ := h.holds
    refine (avlFirst_spec hs (hs.height_lt rfl hfuel)).mono (fun r T hpost => ?_) fun _ _ => False.elim
    obtain ⟨rfl, rfl⟩ := hpost
    exact ⟨_, rfl, h, Nat.le_succ _⟩
  | last =>
    obtain ⟨s, hs, rfl⟩ := h.holds
    refine (avlLast_spec hs (hs.height_lt rfl hfuel)).mono (fun r T hpost => ?_) fun _ _ => False.elim
    obtain ⟨rfl, rfl⟩ := hpost
    exact ⟨_, rfl, h, Nat.le_succ _⟩

/-! ## Runs -/

/-- Every run of calls answers as the set does and leaves its elements behind. It fails an `ASSERT` only where an
element with the same key is added. -/
theorem avlRun_refines {cs : List (AvlCall ι κ)} (h : HoldsSet key tmp t l) (hlegal : LegalRun key tmp cs l)
    (hfuel : l.length + cs.length + 1 < Nat.fib (fuel + 2)) :
    Ends (avlRun key fuel tmp cs) t
      (fun as T => ∃ l', setRun key cs l = some (as, l') ∧ HoldsSet key tmp T l')
      (fun e _ => e = .assertion ∧ setRun key cs l = none) := by
  induction cs generalizing t l with
  | nil => exact ⟨l, rfl, h⟩
  | cons c cs ih =>
    obtain ⟨hc, hcs⟩ := hlegal
    rw [List.length_cons] at hfuel
    unfold avlRun setRun
    refine (call_refines h hc (by omega)).seq' (fun a T hpost => ?_) fun e T hpost => ?_
    · obtain ⟨l', hstep, hT, hlength⟩ := hpost
      rw [hstep]
      refine (ih hT (hcs a l' hstep) (by omega)).seq' (fun as T' hpost => ?_) fun e T' hpost => ?_
      · obtain ⟨l'', hrun, hT'⟩ := hpost
        refine ⟨l'', ?_, hT'⟩
        dsimp only
        rw [hrun]
        rfl
      · refine ⟨hpost.1, ?_⟩
        dsimp only
        rw [hpost.2]
        rfl
    · rw [hpost.2]
      exact ⟨hpost.1, rfl⟩

/-- From the empty tree on. -/
theorem avlRun_refines_first :
    Ends (avlRun id 4 0 [.add 2, .add 1, .add 3, .remove 2, .findNearest 2 true, .walk 3 false])
      (avlCreate fun _ => ⟨fun _ => none, none, false, 0⟩)
      (fun as T => ∃ l', setRun id [.add 2, .add 1, .add 3, .remove 2, .findNearest 2 true, .walk 3 false] [] =
        some (as, l') ∧ HoldsSet id 0 T l')
      (fun e _ => e = .assertion ∧
        setRun id [.add 2, .add 1, .add 3, .remove 2, .findNearest 2 true, .walk 3 false] [] = none) := by
  refine avlRun_refines avlCreate_holdsSet ?_ (by decide)
  simp [LegalRun, AvlCall.Legal, setStep, aside]

example : setRun id [.add 2, .add 1, .add 3, .remove 2, .findNearest 2 true, .walk 3 false] [] =
    some ([none, none, none, none, some 3, some 1], [1, 3]) := by decide

/-! ## A walk over all nodes -/

section Walk

variable {σ : Type} {cb : ι → σ → AvlM ι (ℤ × σ)} {act : ι → σ → ℤ × σ} {gone : ι → Bool} {x : σ} {b : List ι} {rounds : ℕ}

/-- Visits in turn, up to the first code that is not zero. -/
def visits (act : ι → σ → ℤ × σ) : List ι → σ → ℤ × σ
  | [], x => (0, x)
  | p :: l, x => if (act p x).1 ≠ 0 then act p x else visits act l (act p x).2

/-- The elements that are left behind if a visit removes those that are to be gone. -/
def leftBehind (act : ι → σ → ℤ × σ) (gone : ι → Bool) : List ι → σ → List ι
  | [], _ => []
  | p :: l, x =>
    (bif gone p then [] else [p]) ++ if (act p x).1 ≠ 0 then l else leftBehind act gone l (act p x).2

/-- The callback does `act` and may remove the node that it gets, but no other one. -/
def IsVisit (key : ι → κ) (tmp : ι) (cb : ι → σ → AvlM ι (ℤ × σ)) (act : ι → σ → ℤ × σ) (gone : ι → Bool) (l : List ι) :
    Prop :=
  ∀ p x t l', HoldsSet key tmp t l' → l'.Sublist l → p ∈ l' →
    Ends (cb p x) t (fun r T => r = act p x ∧ HoldsSet key tmp T (bif gone p then l'.erase p else l')) (fun _ _ => False)

omit [DecidableEq ι] in
theorem HoldsSet.notMem (h : HoldsSet key tmp t (b ++ p :: r)) : p ∉ b := by
  intro hp
  obtain ⟨-, -, hb⟩ := List.pairwise_append.mp h.sorted
  exact lt_irrefl _ (hb p hp p List.mem_cons_self)

/-- The nodes in `b` were left behind, those in `r` are to be visited. -/
theorem walkAllLoop_spec (h : HoldsSet key tmp t (b ++ r)) (hl : (b ++ r).Sublist l)
    (hcb : IsVisit key tmp cb act gone l) (hfuel : l.length + 1 < Nat.fib (fuel + 2)) (hrounds : r.length < rounds) :
    Ends (walkAllLoop fuel cb rounds r.head? x) t
      (fun q T => q = visits act r x ∧ HoldsSet key tmp T (b ++ leftBehind act gone r x)) (fun _ _ => False) := by
  induction rounds generalizing t b r x with
  | zero => exact absurd hrounds (Nat.not_lt_zero _)
  | succ rounds ih =>
    cases r with
    | nil => exact ⟨rfl, h⟩
    | cons p r =>
      have hmem : p ∈ b ++ p :: r := List.mem_append_right _ List.mem_cons_self
      have hlength := hl.length_le
      rw [List.length_cons] at hrounds
      show Ends (walkAllLoop fuel cb (rounds + 1) (some p) x) _ _ _
      unfold walkAllLoop visits leftBehind
      refine (h.walk hmem (by omega) avlAfter).seq fun q t' hpost => ?_
      obtain ⟨rfl, rfl⟩ := hpost
      have hnext : nearest avlAfter (aside key (key p) avlAfter (b ++ p :: r)) = r.head? := by
        rw [aside_middle h.sorted]
        rfl
      rw [hnext]
      refine (hcb p x _ _ h hl hmem).seq fun q T hpost => ?_
      obtain ⟨rfl, hT⟩ := hpost
      have hkept : (bif gone p then (b ++ p :: r).erase p else b ++ p :: r) = (b ++ bif gone p then [] else [p]) ++ r := by
        cases gone p with
        | false => simp
        | true => simp [List.erase_append_right _ h.notMem]
      rw [hkept] at hT
      rw [← List.append_assoc]
      split_ifs with hcode
      · exact ⟨rfl, hT⟩
      · refine ih hT ?_ (by omega)
        rw [← hkept]
        cases gone p with
        | false => exact hl
        | true => exact List.erase_sublist.trans hl

/-- `avl_walk_all` visits every node once, in the order of the keys, up to the first code that is not zero, also when
the callback removes the nodes that it visits. -/
theorem avlWalkAll_visits (h : HoldsSet key tmp t l) (hcb : IsVisit key tmp cb act gone l)
    (hfuel : l.length + 1 < Nat.fib (fuel + 2)) (hrounds : l.length < rounds) :
    Ends (avlWalkAll fuel rounds cb x) t
      (fun r T => r = visits act l x ∧ HoldsSet key tmp T (leftBehind act gone l x)) (fun _ _ => False) := by
  unfold avlWalkAll
  rw [ends_bind, ends_get]
  split_ifs with hzero
  · rw [h.numnodes] at hzero
    cases List.length_eq_zero_iff.mp hzero
    exact ⟨rfl, h⟩
  · obtain ⟨s, hs, rfl⟩ := h.holds
    refine (avlFirst_spec hs (hs.height_lt rfl hfuel)).seq fun r T hpost => ?_
    obtain ⟨rfl, rfl⟩ := hpost
    exact walkAllLoop_spec (b := []) h (List.Sublist.refl _) hcb hfuel hrounds

/-- The node `2` above `1` and `3`. -/
def threeNodes : AvlTree ℕ where
  root := some 2
  numnodes := 3
  node p := if p = 2 then ⟨fun d => if d then some 3 else some 1, none, false, 0⟩ else ⟨fun _ => none, some 2, p = 3, 0⟩

theorem threeNodes_linked : Holds threeNodes (node 2 (node 1 nil nil) (node 3 nil nil)) :=
  ⟨rfl, by simp [Linked, threeNodes, rootOf], by simp [IsBalanced]⟩

theorem threeNodes_holds : HoldsSet id 0 threeNodes [1, 2, 3] where
  holds := ⟨_, threeNodes_linked, rfl⟩
  sorted := by decide
  fresh := by decide
  numnodes := rfl

/-- All of them are removed on the way. -/
theorem avlWalkAll_visits_removed :
    Ends (avlWalkAll 4 4 (fun p seen => do avlRemove 4 0 p; return (0, seen ++ [p])) []) threeNodes
      (fun r T => r = visits (fun p seen => (0, seen ++ [p])) [1, 2, 3] [] ∧
        HoldsSet id 0 T (leftBehind (fun p seen => (0, seen ++ [p])) (fun _ => true) [1, 2, 3] ([] : List ℕ)))
      (fun _ _ => False) := by
  refine avlWalkAll_visits threeNodes_holds (fun p seen t l' h hl hp => ?_) (by decide) (by decide)
  have hlength : l'.length ≤ 3 := hl.length_le
  have hfib : Nat.fib (4 + 2) = 8 := by decide
  exact (h.remove hp (by omega)).seq fun _ T hT => ⟨rfl, hT⟩

end Walk

/-! ## A node beside another one -/

section Here

variable {T : AvlTree ι} {a q : ι} {f : Frame ι} {b c : List (Frame ι)} {x y z : BinaryTree ι}

/-- A node is put at a free place below another one. -/
theorem insertBelow_spec (h : Holds t (plug (f :: c) nil)) (hnodup : (a :: inorder (plug (f :: c) nil)).Nodup)
    (hfuel : (plug (f :: c) nil).height < fuel) :
    Ends (do
      avlAssert ((← avlChild f.label f.side).isNone)
      avlInsert fuel a (some f.label, f.side)) t
      (fun _ T => T.numnodes = t.numnodes + 1 ∧
        ∃ s, Holds T s ∧ inorder s = inorder (plug (f :: c) (node a nil nil)))
      (fun _ _ => False) := by
  obtain ⟨hstands, -⟩ := h.stands
  have hfree : (t.node f.label).child f.side = none := hstands.hole.above.1
  have hout : (a :: outside (f :: c)).Nodup :=
    (((inorder_plug_perm (c := f :: c) (t := nil)).cons a).nodup_iff).mp hnodup
  have hlength : (f :: c).length + (nil : BinaryTree ι).height ≤ (plug (f :: c) nil).height := length_le_height
  rw [ends_bind, ends_avlChild, hfree, ends_bind, ends_avlAssert (by rfl)]
  exact (avlInsert_spec h hout (by omega)).mono (fun _ T hpost => hpost.2) fun _ _ => id

omit [DecidableEq ι] in
/-- The end of a subtree on one side, with an element put there. -/
theorem inorder_spine (hside : ∀ f ∈ b, f.side = d) :
    inorder (plug b (branch d q (node a nil nil) z)) =
      along d [a] (inorder (plug b (branch d q nil z))) := by
  have hnone := beyond_spine hside
  have hleaf : inorder (node a nil nil) = [a] := rfl
  rw [inorder_plug d, inorder_plug d, hnone, inorder_branch, inorder_branch, hleaf, inorder]
  simp only [nil_along, along_assoc]

omit [DecidableEq ι] in
/-- Where an element stands beside another one. -/
theorem inorder_beside {x' : BinaryTree ι} (hx : inorder x' = along (!d) [a] (inorder x)) :
    ∃ l r, inorder (plug c (branch d p x y)) = l ++ p :: r ∧
      inorder (plug c (branch d p x' y)) = l ++ (bif d then [p, a] else [a, p]) ++ r := by
  rw [inorder_plug d, inorder_plug d, inorder_branch, inorder_branch, hx]
  cases d with
  | false =>
    exact ⟨beyond false c ++ inorder x, inorder y ++ beyond true c, by simp [along],
      by simp [along]⟩
  | true =>
    exact ⟨beyond false c ++ inorder y, inorder x ++ beyond true c, by simp [along],
      by simp [along]⟩

/-- `avl_insert_here` puts the new node right before or right behind the other one, into a balanced tree. -/
theorem avlInsertHere_beside (h : Holds t s) (hp : p ∈ inorder s) (hnodup : (a :: inorder s).Nodup)
    (hfuel : s.height < fuel) :
    Ends (avlInsertHere fuel a p d) t
      (fun _ T => T.numnodes = t.numnodes + 1 ∧ ∃ s', Holds T s' ∧
        ∃ l r, inorder s = l ++ p :: r ∧
          inorder s' = l ++ (bif d then [p, a] else [a, p]) ++ r)
      (fun _ _ => False) := by
  obtain ⟨c, x, y, rfl⟩ : ∃ c x y, s = plug c (branch d p x y) := by
    obtain ⟨c, l, r, rfl⟩ := exists_plug hp
    cases d with
    | false => exact ⟨c, l, r, rfl⟩
    | true => exact ⟨c, r, l, rfl⟩
  obtain ⟨hstands, -⟩ := h.stands
  obtain ⟨hx, -, -, -, -, hlx, -⟩ := linked_branch.mp hstands.linked
  have hlength : c.length + (branch d p x y).height ≤ (plug c (branch d p x y)).height := length_le_height
  rw [height_branch] at hlength
  unfold avlInsertHere placeBeside
  rw [ends_bind, ends_bind, ends_avlChild, hx]
  cases hroot : rootOf x with
  | none =>
    cases rootOf_eq_none.mp hroot
    refine (insertBelow_spec (f := ⟨d, p, y⟩) h hnodup hfuel).mono (fun _ T hpost => ?_) fun _ _ => id
    obtain ⟨hcount, s', hs', horder⟩ := hpost
    refine ⟨hcount, s', hs', ?_⟩
    rw [horder]
    exact inorder_beside (by simp [inorder])
  | some v =>
    dsimp only
    refine Ends.bind ((walkDown_spec hlx hroot (by omega)).mono (fun q T hpost => ?_) fun _ _ => id)
    obtain ⟨rfl, b, z, rfl, hside⟩ := hpost
    have hwhole : plug c (branch d p (plug b (branch (!d) q nil z)) y) =
        plug (⟨!d, q, z⟩ :: (b ++ ⟨d, p, y⟩ :: c)) nil := by
      show _ = plug (b ++ ⟨d, p, y⟩ :: c) (branch (!d) q nil z)
      rw [plug_append]
      rfl
    have h' := h
    rw [hwhole] at h' hnodup hfuel
    refine (insertBelow_spec h' hnodup hfuel).mono (fun _ T' hpost => ?_) fun _ _ => id
    obtain ⟨hcount, s', hs', horder⟩ := hpost
    refine ⟨hcount, s', hs', ?_⟩
    have hnew : plug (⟨!d, q, z⟩ :: (b ++ ⟨d, p, y⟩ :: c)) (node a nil nil) =
        plug c (branch d p (plug b (branch (!d) q (node a nil nil) z)) y) := by
      show plug (b ++ ⟨d, p, y⟩ :: c) (branch (!d) q (node a nil nil) z) = _
      rw [plug_append]
      rfl
    rw [horder, hnew]
    exact inorder_beside (inorder_spine hside)

/-- A node between `2` and `3`. -/
theorem avlInsertHere_beside_two :
    Ends (avlInsertHere 4 5 2 true) threeNodes
      (fun _ T => T.numnodes = threeNodes.numnodes + 1 ∧ ∃ s, Holds T s ∧
        ∃ l r, inorder (node 2 (node 1 nil nil) (node 3 nil nil)) = l ++ 2 :: r ∧
          inorder s = l ++ (bif true then [2, 5] else [5, 2]) ++ r)
      (fun _ _ => False) :=
  avlInsertHere_beside threeNodes_linked (by decide) (by decide) (by decide)

end Here

end Keys

end IndexFs.Avl
