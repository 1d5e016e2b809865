import Mathlib.Tactic

/-!
# Multiway search trees of one height, and positions in them

A block has a label, a first child and then entries, each followed by a child.
`Node ι α h` is a tree whose leaves all lie `h` blocks deep, so no two leaves can
lie at different depths; below a leaf's entries there is nothing (`Node ι α 0`).
`Path ι α H h` is a tree of height `H` with a hole for a tree of height `h`: the
blocks from the root down to the hole, each cut at the child that leads to it.

* `elems`: the entries in order; `labels`: the labels of the blocks.
* `elems_fill`: filling a hole puts the entries of the filling between those before
  and those behind the hole.
* `labels_fill`: the labels of a filled path.
* `Path.relabel`: new labels for the blocks of a path; nothing else changes.
-/

namespace IndexFs.Multiway

variable {ι α β γ : Type}

/-! ## Cutting an alternating list -/

/-- Children and entries of a block, from those before a child, the child, and those
behind it. -/
def chain : List (β × α) → β → List (α × β) → β × List (α × β)
  | [], c, after => (c, after)
  | (b, a) :: before, c, after =>
    (b, (a, (chain before c after).1) :: (chain before c after).2)

@[simp] theorem chain_nil (c : β) (after : List (α × β)) : chain [] c after = (c, after) := rfl

theorem chain_concat (before : List (β × α)) (b : β) (a : α) (c : β) (after : List (α × β)) :
    chain (before ++ [(b, a)]) c after = chain before b ((a, c) :: after) := by
  induction before with
  | nil => rfl
  | cons x before ih => simp [chain, ih]

/-- The first child and the entries in front are those before the cut. -/
theorem chain_append (before : List (β × α)) (c : β) (l r : List (α × β)) :
    chain before c (l ++ r) = ((chain before c l).1, (chain before c l).2 ++ r) := by
  induction before with
  | nil => rfl
  | cons x before ih => simp [chain, ih]

theorem mem_chain {x : α × β} (before : List (β × α)) (c : β) {after : List (α × β)} (hx : x ∈ after) :
    x ∈ (chain before c after).2 := by
  have h := chain_append before c [] after
  rw [List.nil_append] at h
  rw [h]
  exact List.mem_append_right _ hx

theorem chain_before_append (l r : List (β × α)) (c : β) (after : List (α × β)) :
    chain (l ++ r) c after = chain l (chain r c after).1 (chain r c after).2 := by
  induction l with
  | nil => rfl
  | cons x l ih => simp [chain, ih]

/-- Two cuts of one block: one of them is further to the right. -/
theorem chain_eq_chain {before before' : List (β × α)} {c c' : β} {after after' : List (α × β)}
    (h : chain before c after = chain before' c' after') :
    (∃ D, before = before' ++ D ∧ chain D c after = (c', after')) ∨
      ∃ D, before' = before ++ D ∧ chain D c' after' = (c, after) := by
  induction before generalizing before' with
  | nil => exact .inr ⟨before', rfl, h.symm⟩
  | cons x before ih =>
    cases before' with
    | nil => exact .inl ⟨x :: before, rfl, h⟩
    | cons y before' =>
      obtain ⟨b, a⟩ := x
      obtain ⟨b', a'⟩ := y
      simp only [chain, Prod.mk.injEq, List.cons.injEq] at h
      obtain ⟨rfl, ⟨rfl, hfst⟩, hsnd⟩ := h
      rcases ih (Prod.ext hfst hsnd) with ⟨D, rfl, hD⟩ | ⟨D, rfl, hD⟩
      · exact .inl ⟨D, rfl, hD⟩
      · exact .inr ⟨D, rfl, hD⟩

/-- A cut of the image of a block is the image of a cut. -/
theorem exists_chain_of_map (f : β → γ) {before : List (γ × α)} {c : γ} {after : List (α × γ)} {b : β}
    {rest : List (α × β)} (h : chain before c after = (f b, rest.map fun x => (x.1, f x.2))) :
    ∃ B m A, chain B m A = (b, rest) ∧ before = B.map (fun x => (f x.1, x.2)) ∧ c = f m ∧
      after = A.map fun x => (x.1, f x.2) := by
  induction before generalizing b rest with
  | nil =>
    simp only [chain_nil, Prod.mk.injEq] at h
    exact ⟨[], b, rest, rfl, rfl, h.1, h.2⟩
  | cons x before ih =>
    obtain ⟨g, a⟩ := x
    cases rest with
    | nil => simp [chain] at h
    | cons y rest =>
      simp only [chain, List.map_cons, Prod.mk.injEq, List.cons.injEq] at h
      obtain ⟨rfl, ⟨rfl, hfst⟩, hsnd⟩ := h
      obtain ⟨B, m, A, hchain, rfl, rfl, rfl⟩ := ih (Prod.ext hfst hsnd)
      exact ⟨(b, y.1) :: B, m, A, by simp [chain, hchain], rfl, rfl, rfl⟩

theorem chain_map (f : β → γ) (before : List (β × α)) (c : β) (after : List (α × β)) :
    chain (before.map fun x => (f x.1, x.2)) (f c) (after.map fun x => (x.1, f x.2)) =
      (f (chain before c after).1, (chain before c after).2.map fun x => (x.1, f x.2)) := by
  induction before with
  | nil => rfl
  | cons x before ih => simp [chain, ih]

/-- Every block can be cut at its last child. -/
theorem exists_chain_last (c : β) (rest : List (α × β)) : ∃ B e, chain B e [] = (c, rest) := by
  induction rest generalizing c with
  | nil => exact ⟨[], c, rfl⟩
  | cons x rest ih =>
    obtain ⟨B, e, h⟩ := ih x.2
    exact ⟨(c, x.1) :: B, e, by simp [chain, h]⟩

/-- A property of all children, cut at one of them. -/
theorem forall_chain (p : β → Prop) (before : List (β × α)) (c : β) (after : List (α × β)) :
    (p (chain before c after).1 ∧ ∀ x ∈ (chain before c after).2, p x.2) ↔
      (∀ x ∈ before, p x.1) ∧ p c ∧ ∀ x ∈ after, p x.2 := by
  induction before with
  | nil => simp
  | cons x before ih => simp only [chain, List.forall_mem_cons, ih]; tauto

/-- Concatenating a list for each child, cut at one of them. -/
theorem flatMap_chain (f : β → List γ) (g : α → List γ) (before : List (β × α)) (c : β)
    (after : List (α × β)) :
    f (chain before c after).1 ++ (chain before c after).2.flatMap (fun x => g x.1 ++ f x.2) =
      before.flatMap (fun x => f x.1 ++ g x.2) ++ f c ++ after.flatMap fun x => g x.1 ++ f x.2 := by
  induction before with
  | nil => simp
  | cons x before ih => simp only [chain, List.flatMap_cons, List.append_assoc, ih]

/-- The entries of a block, cut at a child. -/
theorem entries_chain (before : List (β × α)) (c : β) (after : List (α × β)) :
    (chain before c after).2.map Prod.fst = before.map Prod.snd ++ after.map Prod.fst := by
  induction before with
  | nil => rfl
  | cons x before ih => simp [chain, ih]

/-! ## Trees -/

/-- A block with children of type `β`. -/
structure Block (ι α β : Type) where
  label : ι
  first : β
  rest : List (α × β)

/-- A tree whose leaves lie `h` blocks deep. -/
def Node (ι α : Type) : ℕ → Type
  | 0 => Unit
  | h + 1 => Block ι α (Node ι α h)

namespace Node

variable {h : ℕ}

def block (i : ι) (c : Node ι α h) (rest : List (α × Node ι α h)) : Node ι α (h + 1) :=
  (⟨i, c, rest⟩ : Block ι α (Node ι α h))

/-- The block at the root. -/
def root (n : Node ι α (h + 1)) : Block ι α (Node ι α h) := n

@[simp] theorem root_block (i : ι) (c : Node ι α h) (rest : List (α × Node ι α h)) :
    (block i c rest).root = ⟨i, c, rest⟩ := rfl

/-- Trees of positive height are blocks. -/
theorem exists_block (n : Node ι α (h + 1)) : ∃ i c rest, n = block i c rest :=
  ⟨n.root.label, n.root.first, n.root.rest, rfl⟩

/-- What lies below the entries of a leaf. -/
def nil : Node ι α 0 := ()

/-- The entries in order. -/
def elems : {h : ℕ} → Node ι α h → List α
  | 0, _ => []
  | _ + 1, n => elems n.root.first ++ n.root.rest.flatMap fun x => x.1 :: elems x.2

/-- The labels of all blocks. -/
def labels : {h : ℕ} → Node ι α h → List ι
  | 0, _ => []
  | _ + 1, n => n.root.label :: (labels n.root.first ++ n.root.rest.flatMap fun x => labels x.2)

/-- `P` holds of every block. -/
def Forall (P : (h : ℕ) → Block ι α (Node ι α h) → Prop) : {h : ℕ} → Node ι α h → Prop
  | 0, _ => True
  | h + 1, n => P h n.root ∧ Forall P n.root.first ∧ ∀ x ∈ n.root.rest, Forall P x.2

@[simp] theorem elems_zero (n : Node ι α 0) : n.elems = [] := rfl

@[simp] theorem labels_zero (n : Node ι α 0) : n.labels = [] := rfl

@[simp] theorem forall_zero (P : (h : ℕ) → Block ι α (Node ι α h) → Prop) (n : Node ι α 0) :
    n.Forall P := trivial

theorem forall_block {P : (h : ℕ) → Block ι α (Node ι α h) → Prop} {i : ι} {c : Node ι α h}
    {rest : List (α × Node ι α h)} :
    (block i c rest).Forall P ↔ P h ⟨i, c, rest⟩ ∧ c.Forall P ∧ ∀ x ∈ rest, x.2.Forall P := Iff.rfl

/-- The block with the given children and entries, cut at a child. -/
def plug (i : ι) (before : List (Node ι α h × α)) (c : Node ι α h) (after : List (α × Node ι α h)) :
    Node ι α (h + 1) :=
  block i (chain before c after).1 (chain before c after).2

@[simp] theorem plug_nil (i : ι) (c : Node ι α h) (after : List (α × Node ι α h)) :
    plug i [] c after = block i c after := rfl

/-- Every block can be cut at its first or last child. -/
theorem exists_plug_edge (last : Prop) [Decidable last] (n : Node ι α (h + 1)) :
    ∃ i before c after, n = plug i before c after ∧ if last then after = [] else before = [] := by
  obtain ⟨i, c, rest, rfl⟩ := n.exists_block
  split_ifs
  · obtain ⟨before, e, he⟩ := exists_chain_last c rest
    exact ⟨i, before, e, [], by unfold plug; rw [he], rfl⟩
  · exact ⟨i, [], c, rest, rfl, rfl⟩

/-- The entries of a block before a child, with those of the children there. -/
def elemsBefore (before : List (Node ι α h × α)) : List α :=
  before.flatMap fun x => x.1.elems ++ [x.2]

/-- The entries of a block behind a child, with those of the children there. -/
def elemsAfter (after : List (α × Node ι α h)) : List α :=
  after.flatMap fun x => x.1 :: x.2.elems

def labelsBefore (before : List (Node ι α h × α)) : List ι := before.flatMap fun x => x.1.labels

def labelsAfter (after : List (α × Node ι α h)) : List ι := after.flatMap fun x => x.2.labels

@[simp] theorem elemsBefore_nil : elemsBefore ([] : List (Node ι α h × α)) = [] := rfl

@[simp] theorem elemsAfter_nil : elemsAfter ([] : List (α × Node ι α h)) = [] := rfl

@[simp] theorem elemsBefore_append (l r : List (Node ι α h × α)) :
    elemsBefore (l ++ r) = elemsBefore l ++ elemsBefore r := List.flatMap_append

@[simp] theorem elemsBefore_cons (x : Node ι α h × α) (l : List (Node ι α h × α)) :
    elemsBefore (x :: l) = x.1.elems ++ x.2 :: elemsBefore l := by
  simp [elemsBefore]

@[simp] theorem elemsAfter_cons (x : α × Node ι α h) (r : List (α × Node ι α h)) :
    elemsAfter (x :: r) = x.1 :: (x.2.elems ++ elemsAfter r) := rfl

@[simp] theorem elemsAfter_append (l r : List (α × Node ι α h)) :
    elemsAfter (l ++ r) = elemsAfter l ++ elemsAfter r := List.flatMap_append

@[simp] theorem labelsBefore_nil : labelsBefore ([] : List (Node ι α h × α)) = [] := rfl

@[simp] theorem labelsAfter_nil : labelsAfter ([] : List (α × Node ι α h)) = [] := rfl

@[simp] theorem labelsBefore_append (l r : List (Node ι α h × α)) :
    labelsBefore (l ++ r) = labelsBefore l ++ labelsBefore r := List.flatMap_append

@[simp] theorem labelsBefore_cons (x : Node ι α h × α) (l : List (Node ι α h × α)) :
    labelsBefore (x :: l) = x.1.labels ++ labelsBefore l := rfl

@[simp] theorem labelsAfter_cons (x : α × Node ι α h) (r : List (α × Node ι α h)) :
    labelsAfter (x :: r) = x.2.labels ++ labelsAfter r := rfl

@[simp] theorem labelsAfter_append (l r : List (α × Node ι α h)) :
    labelsAfter (l ++ r) = labelsAfter l ++ labelsAfter r := List.flatMap_append

theorem elems_block (i : ι) (c : Node ι α h) (rest : List (α × Node ι α h)) :
    (block i c rest).elems = c.elems ++ elemsAfter rest := rfl

theorem labels_block (i : ι) (c : Node ι α h) (rest : List (α × Node ι α h)) :
    (block i c rest).labels = i :: (c.labels ++ labelsAfter rest) := rfl

theorem elems_plug (i : ι) (before : List (Node ι α h × α)) (c : Node ι α h)
    (after : List (α × Node ι α h)) :
    (plug i before c after).elems = elemsBefore before ++ c.elems ++ elemsAfter after :=
  flatMap_chain elems (fun a => [a]) before c after

theorem labels_plug (i : ι) (before : List (Node ι α h × α)) (c : Node ι α h)
    (after : List (α × Node ι α h)) :
    (plug i before c after).labels = i :: (labelsBefore before ++ c.labels ++ labelsAfter after) := by
  have h1 := flatMap_chain labels (fun _ => []) before c after
  simp only [List.nil_append, List.append_nil] at h1
  unfold plug
  rw [labels_block]
  exact congrArg (i :: ·) h1

theorem forall_plug {P : (h : ℕ) → Block ι α (Node ι α h) → Prop} {i : ι}
    {before : List (Node ι α h × α)} {c : Node ι α h} {after : List (α × Node ι α h)} :
    (plug i before c after).Forall P ↔
      P h ⟨i, (chain before c after).1, (chain before c after).2⟩ ∧
        (∀ x ∈ before, x.1.Forall P) ∧ c.Forall P ∧ ∀ x ∈ after, x.2.Forall P := by
  unfold plug
  rw [forall_block, forall_chain (fun n : Node ι α h => n.Forall P)]

/-- A property of the entries of all blocks. -/
theorem forall_elems {p : α → Prop} {h : ℕ} {n : Node ι α h} :
    n.Forall (fun _ b => ∀ x ∈ b.rest.map Prod.fst, p x) ↔ ∀ a ∈ n.elems, p a := by
  induction h with
  | zero => simp
  | succ h ih =>
    obtain ⟨i, c, rest, rfl⟩ := n.exists_block
    rw [forall_block, elems_block, elemsAfter, List.forall_mem_append, ih]
    simp only [List.forall_mem_map, List.forall_mem_flatMap, List.forall_mem_cons]
    constructor
    · rintro ⟨hrest, hc, hchildren⟩
      exact ⟨hc, fun x hx => ⟨hrest x hx, ih.mp (by simpa using hchildren x hx)⟩⟩
    · rintro ⟨hc, hrest⟩
      exact ⟨fun x hx => (hrest x hx).1, hc, fun x hx => by simpa using ih.mpr (hrest x hx).2⟩

theorem Forall.imp_labels {P Q : (h : ℕ) → Block ι α (Node ι α h) → Prop} {h : ℕ} {n : Node ι α h}
    (hn : n.Forall P) (hPQ : ∀ h b, b.label ∈ n.labels → P h b → Q h b) : n.Forall Q := by
  induction h with
  | zero => exact trivial
  | succ h ih =>
    obtain ⟨i, c, rest, rfl⟩ := n.exists_block
    rw [forall_block] at hn ⊢
    rw [labels_block] at hPQ
    refine ⟨hPQ h _ (by simp) hn.1, ih hn.2.1 fun h b hb => hPQ h b ?_, fun x hx =>
      ih (hn.2.2 x hx) fun h b hb => hPQ h b ?_⟩
    · exact List.mem_cons_of_mem _ (List.mem_append_left _ hb)
    · exact List.mem_cons_of_mem _ (List.mem_append_right _ (List.mem_flatMap.mpr ⟨x, hx, hb⟩))

end Node

/-! ## Paths -/

/-- A tree of height `H` with a hole for a tree of height `h`. -/
inductive Path (ι α : Type) (H : ℕ) : ℕ → Type
  | top : Path ι α H H
  | down {h : ℕ} (i : ι) (before : List (Node ι α h × α)) (after : List (α × Node ι α h))
      (up : Path ι α H (h + 1)) : Path ι α H h

namespace Path

variable {H h : ℕ}

open Node

/-- Fill the hole. -/
def fill : {h : ℕ} → Path ι α H h → Node ι α h → Node ι α H
  | _, top, c => c
  | _, down i before after up, c => up.fill (plug i before c after)

/-- The entries before the hole. -/
def left : {h : ℕ} → Path ι α H h → List α
  | _, top => []
  | _, down _ before _ up => up.left ++ elemsBefore before

/-- The entries behind the hole. -/
def right : {h : ℕ} → Path ι α H h → List α
  | _, top => []
  | _, down _ _ after up => elemsAfter after ++ up.right

/-- The labels of the blocks above the hole, from the hole upwards. -/
def spine : {h : ℕ} → Path ι α H h → List ι
  | _, top => []
  | _, down i _ _ up => i :: up.spine

/-- The labels of the blocks beside the way to the hole. -/
def side : {h : ℕ} → Path ι α H h → List ι
  | _, top => []
  | _, down _ before after up => labelsBefore before ++ labelsAfter after ++ up.side

/-- The blocks above the hole get new labels, from the hole upwards. -/
def relabel : {h : ℕ} → Path ι α H h → List ι → Path ι α H h
  | _, down _ before after up, i :: l => down i before after (up.relabel l)
  | _, p, _ => p

@[simp] theorem relabel_down (i j : ι) (before : List (Node ι α h × α))
    (after : List (α × Node ι α h)) (up : Path ι α H (h + 1)) (l : List ι) :
    (down i before after up).relabel (j :: l) = down j before after (up.relabel l) := rfl

@[simp] theorem relabel_nil (p : Path ι α H h) : p.relabel [] = p := by
  cases p <;> rfl

@[simp] theorem relabel_top (l : List ι) : (top : Path ι α H H).relabel l = top := by
  cases l <;> rfl

@[simp] theorem left_relabel (p : Path ι α H h) (l : List ι) : (p.relabel l).left = p.left := by
  induction p generalizing l with
  | top => simp
  | down i before after up ih => cases l <;> simp [left, ih]

@[simp] theorem right_relabel (p : Path ι α H h) (l : List ι) : (p.relabel l).right = p.right := by
  induction p generalizing l with
  | top => simp
  | down i before after up ih => cases l <;> simp [right, ih]

@[simp] theorem side_relabel (p : Path ι α H h) (l : List ι) : (p.relabel l).side = p.side := by
  induction p generalizing l with
  | top => simp
  | down i before after up ih => cases l <;> simp [side, ih]

theorem spine_relabel (p : Path ι α H h) {l : List ι} (hl : l.length = p.spine.length) :
    (p.relabel l).spine = l := by
  induction p generalizing l with
  | top => simpa [spine] using hl
  | down i before after up ih =>
    cases l with
    | nil => simp [spine] at hl
    | cons j l => simp [spine, ih (by simpa [spine] using hl)]

@[simp] theorem relabel_spine (p : Path ι α H h) : p.relabel p.spine = p := by
  induction p with
  | top => rfl
  | down i before after up ih => simp [spine, ih]

/-- The path has one block for each level above the hole. -/
theorem spine_length (p : Path ι α H h) : p.spine.length + h = H := by
  induction p with
  | top => simp [spine]
  | down i before after up ih => simp only [spine, List.length_cons]; omega

theorem elems_fill (p : Path ι α H h) (c : Node ι α h) :
    (p.fill c).elems = p.left ++ c.elems ++ p.right := by
  induction p with
  | top => simp [fill, left, right]
  | down i before after up ih => simp [fill, left, right, ih, elems_plug]

theorem labels_fill (p : Path ι α H h) (c : Node ι α h) :
    (p.fill c).labels.Perm (p.spine ++ p.side ++ c.labels) := by
  induction p with
  | top => simp [fill, spine, side]
  | @down h i before after up ih =>
    rw [fill, spine, side]
    refine (ih _).trans ?_
    rw [labels_plug]
    classical
    refine List.perm_iff_count.mpr fun x => ?_
    simp only [List.count_append, List.count_cons]
    omega

/-- A property that every block has whose entries are all in `s` is decided at a position with only such
entries beside it. -/
theorem forall_fill {P : (h : ℕ) → Block ι α (Node ι α h) → Prop} {s : α → Prop}
    (hP : ∀ h b, (∀ a ∈ b.rest.map Prod.fst, s a) → P h b) {p : Path ι α H h} {c : Node ι α h}
    (hp : ∀ a ∈ p.left ++ p.right, s a) : (p.fill c).Forall P ↔ c.Forall P := by
  have hnode : ∀ {h : ℕ} {n : Node ι α h}, (∀ a ∈ n.elems, s a) → n.Forall P := fun hn =>
    (forall_elems.mpr hn).imp_labels fun h b _ => hP h b
  induction p with
  | top => rfl
  | @down h i before after up ih =>
    simp only [left, right, List.mem_append, elemsBefore, elemsAfter, List.mem_flatMap] at hp
    have hup : ∀ a ∈ up.left ++ up.right, s a := fun a ha =>
      hp a (by rcases List.mem_append.mp ha with ha | ha <;> tauto)
    refine (ih hup).trans (forall_plug.trans ?_)
    refine ⟨fun h => h.2.2.1, fun hc => ⟨hP h _ ?_, fun x hx => hnode fun a ha => ?_, hc, fun x hx =>
      hnode fun a ha => ?_⟩⟩
    · dsimp only
      rw [entries_chain]
      intro a ha
      rcases List.mem_append.mp ha with ha | ha
      · obtain ⟨x, hx, rfl⟩ := List.mem_map.mp ha
        exact hp x.2 (.inl (.inr ⟨x, hx, by simp⟩))
      · obtain ⟨x, hx, rfl⟩ := List.mem_map.mp ha
        exact hp x.1 (.inr (.inl ⟨x, hx, by simp⟩))
    · exact hp a (.inl (.inr ⟨x, hx, by simp [ha]⟩))
    · exact hp a (.inr (.inl ⟨x, hx, by simp [ha]⟩))

/-- The hole of the second path lies in the tree that fills the first one, and the
two filled paths are one tree. -/
inductive Below (p : Path ι α H h) (n : Node ι α h) :
    {h' : ℕ} → Path ι α H h' → Node ι α h' → Prop
  | refl : Below p n p n
  | push {h' : ℕ} {q : Path ι α H (h' + 1)} {j : ι} {B : List (Node ι α h' × α)} {d : Node ι α h'}
      {A : List (α × Node ι α h')} : Below p n q (plug j B d A) → Below p n (down j B A q) d

theorem Below.fill_eq {h' : ℕ} {p : Path ι α H h} {n : Node ι α h} {q : Path ι α H h'}
    {d : Node ι α h'} (hb : Below p n q d) : q.fill d = p.fill n := by
  induction hb with
  | refl => rfl
  | push _ ih => exact ih

theorem Below.trans {h' h'' : ℕ} {p : Path ι α H h} {n : Node ι α h} {q : Path ι α H h'}
    {d : Node ι α h'} {r : Path ι α H h''} {e : Node ι α h''} (h1 : Below p n q d) (h2 : Below q d r e) :
    Below p n r e := by
  induction h2 with
  | refl => exact h1
  | push _ ih => exact ih.push

end Path

end IndexFs.Multiway
