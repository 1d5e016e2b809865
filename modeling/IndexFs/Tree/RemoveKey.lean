import IndexFs.Tree.RemoveNode

/-!
# `index_remove_key_nolock`

The search compares the key only, so an entry of a tree in order is found or missed;
what happens to a found one depends on the block it is in.

* `HasRoom`: if the entry is in a block with children, the entry behind it, which
  takes its place, has room there.
* `hasRoom_fill`: this is decided at the place of the entry.
* `indexRemoveKeyNolock_sorted`: the entry is gone and the others are there, or
  nothing changes.
* `indexRemoveKeyNolock_full`: without room another entry is gone, and one is there twice.
-/

namespace IndexFs.Tree

open IndexFs.Multiway IndexFs.Collate

variable {σ : Type} {m : ContainerModel σ} {t t' : ObjectTree σ} {H h : ℕ} {X : List ℕ} {env : TreeEnv σ}
  {fails : Prop} {key value : Bytes} {cmp : KeyValue → ℤ}

/-! ## Comparisons along a tree -/

/-- Along the entries the comparison goes from smaller to larger, and is equal at one entry at most. -/
def Strict (cmp : KeyValue → ℤ) (l : List KeyValue) : Prop :=
  l.Pairwise fun a b => 0 ≤ cmp a → 0 < cmp b

theorem Strict.sorting {l : List KeyValue} (hs : Strict cmp l) : Sorting cmp l := by
  refine hs.imp fun {a b} hab => ⟨fun ha => hab ha.le, fun hb => ?_⟩
  by_contra ha
  exact absurd (hab (not_lt.mp ha)) hb.not_gt

theorem Strict.split {l r : List KeyValue} {kv : KeyValue} (hs : Strict cmp (l ++ kv :: r)) (h0 : cmp kv = 0) :
    (∀ x ∈ l, cmp x < 0) ∧ ∀ x ∈ r, 0 < cmp x := by
  obtain ⟨-, hr, hlr⟩ := List.pairwise_append.mp hs
  refine ⟨fun x hx => ?_, fun x hx => (List.pairwise_cons.mp hr).1 x hx h0.ge⟩
  by_contra hneg
  exact absurd (hlr x hx kv (by simp) (not_lt.mp hneg)) (by simp [h0])

/-- There is one place for the entry that compares equal. -/
theorem Strict.split_unique {l r l' r' : List KeyValue} {a b : KeyValue} (hs : Strict cmp (l ++ a :: r))
    (heq : l ++ a :: r = l' ++ b :: r') (ha : cmp a = 0) (hb : cmp b = 0) : l = l' ∧ a = b ∧ r = r' := by
  obtain ⟨hl, hr⟩ := hs.split ha
  rcases List.append_eq_append_iff.mp heq with ⟨d, rfl, hd⟩ | ⟨d, rfl, hd⟩
  · cases d with
    | nil => simpa using hd
    | cons x d =>
      obtain ⟨rfl, rfl⟩ := List.cons.inj hd
      exact absurd hb (hr b (by simp)).ne'
  · cases d with
    | nil => simpa [eq_comm] using hd
    | cons x d =>
      obtain ⟨rfl, rfl⟩ := List.cons.inj hd
      exact absurd hb (hl b (by simp)).ne

/-! ## Room for the entry behind -/

/-- If the block has children and an entry that compares equal, the first entry behind that one has room in
its place. -/
def Replaceable (cmp : KeyValue → ℤ) : (h : ℕ) → Block ℕ KeyValue (TNode h) → Prop
  | 0, _ => True
  | _ + 1, b => ∀ x ∈ b.rest, cmp x.1 = 0 → ∀ succ ∈ x.2.elems.head?,
      usedBytes true (b.rest.map Prod.fst) + ieLen true succ ≤ blockSize + ieLen true x.1

/-- The entry that compares equal can be replaced by the one behind it without a split. -/
def HasRoom (cmp : KeyValue → ℤ) (n : TNode H) : Prop := n.Forall (Replaceable cmp)

theorem replaceable_of_ne {h : ℕ} {b : Block ℕ KeyValue (TNode h)} (hb : ∀ kv ∈ b.rest.map Prod.fst, cmp kv ≠ 0) :
    Replaceable cmp h b := by
  cases h with
  | zero => exact trivial
  | succ h =>
    intro x hx h0
    exact absurd h0 (hb x.1 (List.mem_map_of_mem hx))

section Position

variable {i : ℕ} {B : List (TNode h × KeyValue)} {b d : TNode h} {kv : KeyValue} {A : List (KeyValue × TNode h)}
  {q : TPath H (h + 1)}

theorem Strict.sides (hs : Strict cmp ((Path.down i B ((kv, d) :: A) q).fill b).elems) (h0 : cmp kv = 0) :
    (∀ x ∈ q.left ++ Node.elemsBefore B ++ b.elems, cmp x < 0) ∧
      ∀ x ∈ d.elems ++ Node.elemsAfter A ++ q.right, 0 < cmp x := by
  rw [Path.elems_fill] at hs
  simp only [Path.left, Path.right, Node.elemsAfter_cons, List.cons_append] at hs
  exact hs.split h0

/-- Whether there is room is decided in the block that holds the entry. -/
theorem hasRoom_iff (hs : Strict cmp ((Path.down i B ((kv, d) :: A) q).fill b).elems) (h0 : cmp kv = 0) :
    HasRoom cmp ((Path.down i B ((kv, d) :: A) q).fill b) ↔
      Replaceable cmp h ⟨i, (chain B b ((kv, d) :: A)).1, (chain B b ((kv, d) :: A)).2⟩ := by
  obtain ⟨hleft, hright⟩ := hs.sides h0
  simp only [List.mem_append, Node.elemsBefore, Node.elemsAfter, List.mem_flatMap] at hleft hright
  have hside : ∀ x ∈ q.left ++ q.right, cmp x ≠ 0 := by
    intro x hx
    rcases List.mem_append.mp hx with hx | hx
    · exact (hleft x (.inl (.inl hx))).ne
    · exact (hright x (.inr hx)).ne'
  have hnode : ∀ {h : ℕ} {n : TNode h}, (∀ x ∈ n.elems, cmp x ≠ 0) → HasRoom cmp n := fun hn =>
    (Node.forall_elems.mpr hn).imp_labels fun h b _ => replaceable_of_ne
  refine (Path.forall_fill (fun h b => replaceable_of_ne) hside).trans (Node.forall_plug.trans ?_)
  refine ⟨fun hall => hall.1, fun hblock => ⟨hblock, fun x hx => hnode fun y hy => ?_,
    hnode fun y hy => (hleft y (.inr hy)).ne, List.forall_mem_cons.mpr ⟨hnode fun y hy => ?_, fun x hx =>
      hnode fun y hy => ?_⟩⟩⟩
  · exact (hleft y (.inl (.inr ⟨x, hx, by simp [hy]⟩))).ne
  · exact (hright y (.inl (.inl hy))).ne'
  · exact (hright y (.inl (.inr ⟨x, hx, by simp [hy]⟩))).ne'

end Position

/-- An entry in a block with children has room if the first one behind it has. -/
theorem hasRoom_fill {i : ℕ} {B : List (TNode (h + 1) × KeyValue)} {b b' : TNode (h + 1)} {kv : KeyValue}
    {A : List (KeyValue × TNode (h + 1))} {q : TPath H (h + 2)}
    (hs : Strict cmp ((Path.down i B ((kv, b') :: A) q).fill b).elems) (h0 : cmp kv = 0) :
    HasRoom cmp ((Path.down i B ((kv, b') :: A) q).fill b) ↔ ∀ succ s, b'.elems = succ :: s →
      usedBytes true (B.map Prod.snd ++ A.map Prod.fst) + ieLen true succ ≤ blockSize := by
  obtain ⟨hleft, hright⟩ := hs.sides h0
  simp only [List.mem_append, Node.elemsBefore, Node.elemsAfter, List.mem_flatMap] at hleft hright
  rw [hasRoom_iff hs h0]
  have hsize : usedBytes true (B.map Prod.snd ++ ((kv, b') :: A).map Prod.fst) =
      usedBytes true (B.map Prod.snd ++ A.map Prod.fst) + ieLen true kv := by
    unfold usedBytes
    simp only [List.map_cons, sizeOfKvs_append, sizeOfKvs_cons]
    omega
  have hcut := chain_append B b [] ((kv, b') :: A)
  constructor
  · intro hroom succ s hsucc
    have hfits := hroom (kv, b') (mem_chain B b (List.mem_cons_self ..)) h0 succ (by simp [hsucc])
    dsimp only at hfits
    rw [entries_chain, hsize] at hfits
    omega
  · intro hroom x hx hx0 succ hsucc
    have hx' : x = (kv, b') := by
      have hsplit : x ∈ (chain B b []).2 ++ (kv, b') :: A := by
        rw [← List.nil_append ((kv, b') :: A), hcut] at hx
        exact hx
      rcases List.mem_append.mp hsplit with hx | hx
      · have hmemB : x.1 ∈ B.map Prod.snd := by
          have := List.mem_map_of_mem (f := Prod.fst) hx
          rwa [entries_chain, List.map_nil, List.append_nil] at this
        obtain ⟨y, hy, hyx⟩ := List.mem_map.mp hmemB
        exact absurd hx0 (hleft x.1 (.inl (.inr ⟨y, hy, by simp [hyx]⟩))).ne
      rcases List.mem_cons.mp hx with hx | hx
      · exact hx
      · exact absurd hx0 (hright x.1 (.inl (.inr ⟨x, hx, by simp⟩))).ne'
    subst hx'
    obtain ⟨s, hs'⟩ := List.head?_eq_some_iff.mp hsucc
    have hfits := hroom succ s hs'
    dsimp only
    rw [entries_chain, hsize]
    omega

/-! ## `tree_remove_ie` -/

section Dispatch

variable {i : ℕ} {kv : KeyValue} {Q : Unit → ObjectTree σ → Prop} {F : ErrorCode → ObjectTree σ → Prop}

theorem treeRemoveIe_leaf {B : List (TNode 0 × KeyValue)} {b d : TNode 0} {A : List (KeyValue × TNode 0)}
    {q : TPath H 1} (hr : Rep m t (.down i B ((kv, d) :: A) q) b X) (hleaf : Ends (removeLeaf env) t Q F) :
    Ends (treeRemoveIe env) t Q F := by
  unfold treeRemoveIe
  rw [ends_bind, ends_currentIe hr, curIe_cons, if_neg (by simp [mkIe]), if_neg (by simp [mkIe, isLarge])]
  exact hleaf

theorem treeRemoveIe_node {B : List (TNode (h + 1) × KeyValue)} {b d : TNode (h + 1)}
    {A : List (KeyValue × TNode (h + 1))} {q : TPath H (h + 2)}
    (hr : Rep m t (.down i B ((kv, d) :: A) q) b X) (hnode : Ends (removeNode env) t Q F) :
    Ends (treeRemoveIe env) t Q F := by
  unfold treeRemoveIe
  rw [ends_bind, ends_currentIe hr, curIe_cons, if_neg (by simp [mkIe]), if_pos (by simp [mkIe, isLarge])]
  exact hnode

end Dispatch

/-! ## By key -/

section Key

variable {n : TNode (H + 1)} {Q : Unit → ObjectTree σ → Prop} {F : ErrorCode → ObjectTree σ → Prop}

/-- `index_remove_key_nolock`, when the entry that compares equal is found in a leaf, in a block with
children, or not at all. -/
theorem indexRemoveKeyNolock_cases (hl : LawfulEnv env m fails) (hn : HoldsTree m t n) (hok : TreeOk n)
    (hH : H + 1 ≤ treeMaxDepth) (hkey : key ≠ []) (hcmp : Compares env.cr key [] cmp n.elems)
    (hs : Strict cmp n.elems)
    (hleaf : ∀ t₁ i B b kv d A (q : TPath (H + 1) 1), Rep m t₁ (.down i B ((kv, d) :: A) q) b [] →
      (Path.down i B ((kv, d) :: A) q).fill b = n → PathOk (.down i B ((kv, d) :: A) q) → cmp kv = 0 →
      t₁.maxDepth = knownDepth t H → Ends (removeLeaf env) t₁ Q F)
    (hnode : ∀ t₁ h i B b kv b' A (q : TPath (H + 1) (h + 2)), Rep m t₁ (.down i B ((kv, b') :: A) q) b [] →
      (Path.down i B ((kv, b') :: A) q).fill b = n → PathOk (.down i B ((kv, b') :: A) q) → NodeOk b →
      cmp kv = 0 → Ends (removeNode env) t₁ Q F)
    (hmissed : ∀ t₁, HoldsTree m t₁ n → (∀ kv ∈ n.elems, cmp kv ≠ 0) → knownDepth t₁ H = knownDepth t H →
      F .keyNotFound t₁) :
    Ends (indexRemoveKeyNolock env key) t Q F := by
  unfold indexRemoveKeyNolock
  rw [if_neg hkey]
  refine (searchKeyInternal_knowing hl hH hn hkey hcmp hs.sorting).seq' (fun _ t₁ hfound => ?_)
    fun e t₁ hmiss => ?_
  · obtain ⟨h, i, B, b, kv, d, A, q, hr, hfill, h0, hmax⟩ := hfound
    have hlen := q.spine_length
    rw [← hfill] at hok
    obtain ⟨hp, hb⟩ := hok.of_fill (by omega)
    cases h with
    | zero =>
      refine treeRemoveIe_leaf hr (hleaf t₁ i B b kv d A q hr hfill hp h0 ?_)
      rw [hmax rfl]
      simp only [knownDepth, Nat.add_eq_right, Nat.add_sub_cancel]
    | succ h => exact treeRemoveIe_node hr (hnode t₁ h i B b kv d A q hr hfill hp hb h0)
  · obtain ⟨rfl, i, B, A, q, hr, hfill, hleft, hright, hmax⟩ := hmiss
    have hlen := q.spine_length
    refine hmissed t₁ (hfill ▸ hr.holdsTree (by omega)) (fun kv hkv => ?_) ?_
    · rw [← hfill, Path.elems_fill, Node.elems_zero, List.append_nil] at hkv
      rcases List.mem_append.mp hkv with hkv | hkv
      · exact (hleft kv hkv).ne
      · exact (hright kv hkv).ne'
    · unfold knownDepth
      split_ifs with h0
      · rw [hmax, if_pos (by omega)]
      · rfl

theorem le_knownDepth : H ≤ knownDepth t H := by
  unfold knownDepth
  split_ifs <;> omega

/-- A tree at a cursor, as the next call finds it. -/
theorem AtCursor.settle {k L D : ℕ} {l : List KeyValue} (hat : AtCursor m t X L k l)
    (hL : L ≤ min (D + 1) treeMaxDepth) (hmax : t.maxDepth ≤ D) :
    ∃ (H' : ℕ) (n' : TNode (H' + 1)), HoldsTree m t n' ∧ TreeOk n' ∧ H' + 1 ≤ treeMaxDepth ∧
      knownDepth t H' ≤ D ∧ n'.elems = l := by
  have hpos : 0 < L := by
    obtain ⟨h, i, before, c, after, up, -⟩ := hat
    have hlen := up.spine_length
    omega
  obtain ⟨H', rfl⟩ : ∃ H', L = H' + 1 := ⟨L - 1, by omega⟩
  obtain ⟨n', hholds, hok, helems⟩ := hat.holdsTree
  refine ⟨H', n', hholds, hok, by omega, ?_, helems⟩
  unfold knownDepth
  split_ifs <;> omega

/-- `index_remove_key_nolock` when the entry that compares equal can be replaced. -/
theorem indexRemoveKeyNolock_sorted (hl : LawfulEnv env m fails) (hn : HoldsTree m t n) (hok : TreeOk n)
    (hH : H + 1 ≤ treeMaxDepth) (hkey : key ≠ []) (hcmp : Compares env.cr key [] cmp n.elems)
    (hs : Strict cmp n.elems) (hroom : HasRoom cmp n) :
    Ends (indexRemoveKeyNolock env key) t
      (fun _ t' => ∃ l kv r, n.elems = l ++ kv :: r ∧ cmp kv = 0 ∧
        ∃ (H' : ℕ) (n' : TNode (H' + 1)), HoldsTree m t' n' ∧ TreeOk n' ∧ H' + 1 ≤ treeMaxDepth ∧
          knownDepth t' H' ≤ knownDepth t H + 2 ∧ n'.elems = l ++ r)
      (fun e t' => fails ∨ (e = .reparent ∧ treeMaxDepth ≤ H + 1) ∨
        e = .keyNotFound ∧ (∀ kv ∈ n.elems, cmp kv ≠ 0) ∧ HoldsTree m t' n ∧ knownDepth t' H = knownDepth t H) := by
  have hknown : H ≤ knownDepth t H := le_knownDepth
  refine indexRemoveKeyNolock_cases hl hn hok hH hkey hcmp hs ?_ ?_ fun t₁ hn₁ hne hknown₁ =>
    .inr (.inr ⟨rfl, hne, hn₁, hknown₁⟩)
  · intro t₁ i B b kv d A q hr hfill hp h0 hmax
    have hmax' : H + 1 ≠ 1 → t₁.maxDepth = H + 1 - 1 := fun hne => by
      rw [hmax, knownDepth, if_neg (by omega)]
      rfl
    refine (removeLeaf_spec hl hH hr hp hmax').mono (fun _ t' hpost => ?_)
      fun e t' herr => herr.imp_right fun herr => .inl ⟨herr.1, herr.2.1⟩
    obtain ⟨hmax₁, H', k, hle, hat⟩ := hpost
    refine ⟨(Path.down i B A q).left, kv, (Path.down i B A q).right, ?_, h0,
      hat.settle (by omega) (by omega)⟩
    rw [← hfill, Path.elems_fill]
    simp [Path.left, Path.right]
  · intro t₁ h i B b kv b' A q hr hfill hp hb h0
    rw [← hfill] at hroom hs
    refine (removeNode_fits hl hH hr hp hb ((hasRoom_fill hs h0).mp hroom)).mono (fun _ t' hpost => ?_)
      fun e t' herr => herr.imp_right .inl
    obtain ⟨hmax, H', k, hle, hat⟩ := hpost
    refine ⟨(Path.down i B ((kv, b') :: A) q).left ++ b.elems, kv, b'.elems ++ (Path.down i B A q).right, ?_, h0,
      hat.settle (by omega) (by omega)⟩
    rw [← hfill, Path.elems_fill]
    simp [Path.right]

/-- `index_remove_key_nolock` when it cannot: the entry behind it, which takes its place, stays in the leaf
as well. -/
theorem indexRemoveKeyNolock_full (hl : LawfulEnv env m fails) (hn : HoldsTree m t n) (hok : TreeOk n)
    (hH : H + 1 ≤ treeMaxDepth) (hkey : key ≠ []) (hcmp : Compares env.cr key [] cmp n.elems)
    (hs : Strict cmp n.elems) (hfull : ¬ HasRoom cmp n) :
    Ends (indexRemoveKeyNolock env key) t
      (fun _ t' => ∃ l kv r succ, n.elems = l ++ kv :: succ :: r ∧ cmp kv = 0 ∧
        ∃ (H' : ℕ) (n' : TNode (H' + 1)), HoldsTree m t' n' ∧ TreeOk n' ∧ H' + 1 ≤ treeMaxDepth ∧
          knownDepth t' H' ≤ knownDepth t H + 2 ∧ [succ, succ].Sublist n'.elems ∧
          n'.elems.Sublist (l ++ succ :: succ :: r))
      (fun e _ => fails ∨ (e = .reparent ∧ treeMaxDepth ≤ H + 2)) := by
  have hknown : H ≤ knownDepth t H := le_knownDepth
  refine indexRemoveKeyNolock_cases hl hn hok hH hkey hcmp hs ?_ ?_ fun t₁ hn₁ hne _ => ?_
  · intro t₁ i B b kv d A q hr hfill hp h0 hmax
    rw [← hfill] at hfull hs
    exact absurd ((hasRoom_iff hs h0).mpr trivial) hfull
  · intro t₁ h i B b kv b' A q hr hfill hp hb h0
    rw [← hfill] at hfull hs
    rw [hasRoom_fill hs h0] at hfull
    push Not at hfull
    obtain ⟨succ, s, hsucc, hover⟩ := hfull
    refine (removeNode_split hl hH hr hp hb hsucc hover).mono (fun _ t' hpost => ?_)
      fun _ _ herr => herr
    obtain ⟨hmax, H', k, l, hle, hat, htwo, hsub⟩ := hpost
    obtain ⟨H'', n', hholds, hok', hH', hknown', helems⟩ := hat.settle (D := knownDepth t H + 2) (by omega) (by omega)
    refine ⟨(Path.down i B ((kv, b') :: A) q).left ++ b.elems, kv, s ++ (Path.down i B A q).right, succ, ?_, h0,
      H'', n', hholds, hok', hH', hknown', helems ▸ htwo, ?_⟩
    · rw [← hfill, Path.elems_fill]
      simp [Path.right, hsucc]
    · rw [helems]
      simpa [hsucc] using hsub
  · -- a tree in which nothing compares equal has room
    exact absurd ((Node.forall_elems.mpr hne).imp_labels fun h b _ => replaceable_of_ne) hfull

end Key

/-! ## Trees in memory -/

/-- The children of a block. -/
def children (n : TNode (h + 1)) : List (TNode h) := n.root.first :: n.root.rest.map Prod.snd

/-- The block of a tree with the number `v`. -/
def imageAt : {h : ℕ} → TNode h → ℕ → Option IndexBlock
  | 0, _, _ => none
  | h + 1, n, v =>
    if n.root.label = v then some (blockImage h blockSize n.root) else (children n).findSome? fun c => imageAt c v

/-- The object with that tree, all blocks of which were read. -/
def memoryState (n : TNode (H + 1)) : ObjectTree ℕ where
  rootVbn := n.root.label
  rootState := .clean
  rootIb := blockImage H attrRecordContentSize n.root
  caches v := ((children n).findSome? fun c => imageAt c v).map fun ib =>
    { state := .clean, flush := false, ib := some ib }
  maxDepth := 0
  stack := []
  ct := n.labels.sum + 1

theorem labels_children (n : TNode (h + 1)) : n.labels = n.root.label :: (children n).flatMap Node.labels := by
  obtain ⟨i, c, rest, rfl⟩ := n.exists_block
  rw [Node.labels_block]
  simp [children, Node.labelsAfter, List.flatMap_map]

theorem imageAt_eq_none {n : TNode h} {v : ℕ} (hv : v ∉ n.labels) : imageAt n v = none := by
  induction h with
  | zero => rfl
  | succ h ih =>
    rw [labels_children, List.mem_cons, List.mem_flatMap, not_or] at hv
    unfold imageAt
    rw [if_neg fun h => hv.1 h.symm, List.findSome?_eq_none_iff]
    exact fun c hc => ih fun hmem => hv.2 ⟨c, hc, hmem⟩

/-- A block below the root is found in the child it lies in. -/
theorem findSome?_imageAt {n : TNode (h + 1)} (hn : n.labels.Nodup) {c : TNode h} (hc : c ∈ children n) {v : ℕ}
    (hv : v ∈ c.labels) : (children n).findSome? (fun c => imageAt c v) = imageAt c v := by
  rw [labels_children, List.nodup_cons] at hn
  obtain ⟨l, r, hlr⟩ := List.append_of_mem hc
  rw [hlr, List.flatMap_append, List.flatMap_cons] at hn
  have hdisj := List.disjoint_of_nodup_append hn.2
  have hrest := List.disjoint_of_nodup_append (List.nodup_append.mp hn.2).2.1
  have hl : l.findSome? (fun c => imageAt c v) = none := List.findSome?_eq_none_iff.mpr fun d hd =>
    imageAt_eq_none fun hmem => hdisj (List.mem_flatMap.mpr ⟨d, hd, hmem⟩) (List.mem_append_left _ hv)
  have hr : r.findSome? (fun c => imageAt c v) = none := List.findSome?_eq_none_iff.mpr fun d hd =>
    imageAt_eq_none fun hmem => hrest hv (List.mem_flatMap.mpr ⟨d, hd, hmem⟩)
  rw [hlr, List.findSome?_append, hl, Option.none_or, List.findSome?_cons, hr]
  cases imageAt c v <;> rfl

theorem forall_imageAt {n : TNode h} (hn : n.labels.Nodup) :
    n.Forall fun h b => imageAt n b.label = some (blockImage h blockSize b) := by
  induction h with
  | zero => exact trivial
  | succ h ih =>
    have hchild : ∀ c ∈ children n, c.Forall fun h b => imageAt n b.label = some (blockImage h blockSize b) := by
      intro c hc
      have hn' := hn
      rw [labels_children, List.nodup_cons] at hn'
      refine (ih (hn'.2.sublist (List.sublist_flatten_of_mem ?_))).imp_labels fun h b hb hbc => ?_
      · exact List.mem_map_of_mem hc
      · have hne : n.root.label ≠ b.label := fun h =>
          hn'.1 (h ▸ List.mem_flatMap.mpr ⟨c, hc, hb⟩)
        rw [imageAt, if_neg hne, findSome?_imageAt hn hc hb, hbc]
    refine ⟨?_, hchild _ (by simp [children]), fun x hx => hchild _ ?_⟩
    · exact if_pos rfl
    · exact List.mem_cons_of_mem _ (List.mem_map_of_mem hx)

theorem memoryState_holds {n : TNode (H + 1)} (hn : n.labels.Nodup) (h0 : 0 ∉ n.labels) :
    HoldsTree countingModel (memoryState n) n := by
  have hheld : ∀ c ∈ children n, Held countingModel (memoryState n) c := by
    intro c hc
    have hn' := hn
    rw [labels_children, List.nodup_cons] at hn'
    refine (forall_imageAt (hn'.2.sublist (List.sublist_flatten_of_mem (List.mem_map_of_mem hc)))).imp_labels
      fun h b hb hbc => ?_
    unfold blockAt memoryState
    dsimp only
    rw [findSome?_imageAt hn hc hb, hbc]
    rfl
  refine ⟨Nat.succ_pos _, rfl, rfl, hheld _ (by simp [children]), fun x hx => hheld _ ?_, hn, fun v hv => ⟨?_, ?_⟩⟩
  · exact List.mem_cons_of_mem _ (List.mem_map_of_mem hx)
  · exact Nat.lt_succ_of_le (List.le_sum_of_mem hv)
  · rintro rfl
    exact h0 hv

/-- Blocks without entries of their own, down to a leaf with one entry. -/
def tower : (h : ℕ) → (i : ℕ) → KeyValue → TNode (h + 1)
  | 0, i, kv => Node.block i Node.nil [(kv, Node.nil)]
  | h + 1, i, kv => Node.block i (tower h (i + 1) kv) []

@[simp] theorem tower_elems (i : ℕ) (kv : KeyValue) : (tower h i kv).elems = [kv] := by
  induction h generalizing i with
  | zero => rfl
  | succ h ih =>
    unfold tower
    rw [Node.elems_block, ih]
    rfl

@[simp] theorem tower_labels (i : ℕ) (kv : KeyValue) : (tower h i kv).labels = List.range' i (h + 1) := by
  induction h generalizing i with
  | zero => rfl
  | succ h ih =>
    unfold tower
    rw [Node.labels_block, ih]
    simp [Node.labelsAfter, List.range'_succ]

theorem nodeOk_tower {i : ℕ} {kv : KeyValue} (hkv : KeyValueOk kv) : NodeOk (tower h i kv) := by
  induction h generalizing i with
  | zero =>
    have hle := (ieLen_le hkv : ieLen false kv ≤ 1297)
    refine ⟨⟨⟨?_, fun kv' hkv' => ?_⟩, fun _ => List.cons_ne_nil _ _⟩, trivial, fun _ _ => trivial⟩
    · change indexBlockSize + (ieLen false kv + 0) + endLen false ≤ blockSize
      have hend := endLen_bounds false
      unfold indexBlockSize blockSize
      omega
    · obtain rfl := List.mem_singleton.mp hkv'
      exact hkv
  | succ h ih =>
    refine ⟨⟨⟨(by decide : usedBytes true [] ≤ blockSize), by simp [Node.root, tower, Node.block]⟩,
      fun h0 => absurd h0 (Nat.succ_ne_zero h)⟩, ih, fun _ hx => ?_⟩
    cases hx

/-- A value of the largest size. -/
@[irreducible] def longValue : Bytes := List.replicate valueMaxSize 0

theorem longValue_length : longValue.length = 1024 := by
  unfold longValue
  exact List.length_replicate

theorem keyValueOk_long (k : UInt8) : KeyValueOk ([k], longValue) :=
  ⟨le_rfl, (by decide : 1 ≤ keyMaxSize), longValue_length.le⟩

theorem keyValueOk_short (k : UInt8) : KeyValueOk ([k], []) :=
  ⟨le_rfl, (by decide : 1 ≤ keyMaxSize), Nat.zero_le _⟩

/-- The first entry of the root is short, and the one behind it is not. -/
def crowdedTree (h : ℕ) : TNode (h + 2) :=
  Node.block 1 (tower h 2 ([1], []))
    [(([2], []), tower h (h + 3) ([3], longValue)), (([4], longValue), tower h (2 * h + 4) ([5], [])),
      (([6], longValue), tower h (3 * h + 5) ([7], [])), (([8], longValue), tower h (4 * h + 6) ([9], []))]

theorem crowdedTree_elems (h : ℕ) : (crowdedTree h).elems = [([1], []), ([2], []), ([3], longValue),
    ([4], longValue), ([5], []), ([6], longValue), ([7], []), ([8], longValue), ([9], [])] := by
  unfold crowdedTree
  rw [Node.elems_block]
  simp

theorem crowdedTree_used (h : ℕ) : usedBytes true ((crowdedTree h).root.rest.map Prod.fst) = 3194 := by
  change indexBlockSize + (ieLen true ([2], []) + (ieLen true ([4], longValue) + (ieLen true ([6], longValue) +
    (ieLen true ([8], longValue) + 0)))) + endLen true = 3194
  simp only [ieLen, longValue_length]
  rfl

theorem ieLen_long (k : UInt8) : ieLen true ([k], longValue) = 1042 := by
  simp only [ieLen, longValue_length]
  rfl

theorem crowdedTree_full (h : ℕ) : ¬ HasRoom (cmpKey .binary [2]) (crowdedTree h) := by
  intro hroom
  have hfits := hroom.1 (([2], []), tower h (h + 3) ([3], longValue)) (by simp [crowdedTree])
    (by decide : cmpKey .binary [2] ([2], []) = 0) ([3], longValue) (by simp)
  rw [crowdedTree_used, ieLen_long] at hfits
  change 3194 + 1042 ≤ blockSize + ieLen true ([2], []) at hfits
  exact absurd hfits (by decide)

theorem crowdedTree_labels (h : ℕ) : (crowdedTree h).labels = List.range' 1 (5 * h + 6) := by
  unfold crowdedTree
  rw [Node.labels_block]
  simp only [Node.labelsAfter, List.flatMap_cons, List.flatMap_nil, tower_labels, List.append_nil]
  have h3 : h + 3 = 2 + (h + 1) := by omega
  have h4 : 2 * h + 4 = 2 + (h + 1) + (h + 1) := by omega
  have h5 : 3 * h + 5 = 2 + (h + 1) + (h + 1) + (h + 1) := by omega
  have h6 : 4 * h + 6 = 2 + (h + 1) + (h + 1) + (h + 1) + (h + 1) := by omega
  have hall : 5 * h + 6 = h + 1 + (h + 1 + (h + 1 + (h + 1 + (h + 1)))) + 1 := by omega
  rw [h6, h5, h4, h3, hall, List.range'_append_1, List.range'_append_1, List.range'_append_1, List.range'_append_1,
    List.range'_succ]

theorem crowdedTree_keys (h : ℕ) : KeysOk .binary (crowdedTree h).elems := by
  rw [crowdedTree_elems]
  exact ⟨by simp [Collatable], by decide⟩

theorem crowdedTree_wellFormed (hh : h + 2 ≤ treeMaxDepth) :
    WellFormed .binary countingModel (memoryState (crowdedTree h)) (crowdedTree h) := by
  refine ⟨memoryState_holds ?_ ?_, ⟨⟨?_, ?_⟩, nodeOk_tower (keyValueOk_short 1), ?_⟩, hh,
    crowdedTree_keys h⟩
  · rw [crowdedTree_labels]
    exact List.nodup_range'
  · rw [crowdedTree_labels]
    simp only [List.mem_range'_1]
    omega
  · exact (crowdedTree_used h).le.trans (by decide)
  · simp [crowdedTree, keyValueOk_short, keyValueOk_long]
  · simp [crowdedTree, keyValueOk_short, keyValueOk_long, nodeOk_tower]

/-! ## The contract of `index_remove_key_nolock` -/

theorem KeysOk.strict {cr : CollateRule} {l : List KeyValue} (hl : KeysOk cr l) : Strict (cmpKey cr key) l := by
  refine hl.sorted.imp fun hab hge => ?_
  rw [← not_lt, cmpKey_neg, not_lt] at hge
  rw [cmpKey_pos]
  exact hge.trans_lt hab

/-- If the container does not fail and the entry behind a key in a block with children has room there, a key
that is stored is removed, and else nothing changes; a tree of `TREE_MAX_DEPTH` levels may refuse. -/
theorem remove_refines (hl : LawfulEnv env m False) (hcr : env.cr.Ranked) {n : TNode (H + 1)}
    (hw : WellFormed env.cr m t n) (hkey : Collatable env.cr key) (hroom : HasRoom (cmpKey env.cr key) n) :
    Ends (indexRemoveKeyNolock env key) t
      (fun _ t' => ∃ l kv r, n.elems = l ++ kv :: r ∧ collateRank env.cr kv.1 = collateRank env.cr key ∧
        ∃ (H' : ℕ) (n' : TNode (H' + 1)), WellFormed env.cr m t' n' ∧ n'.elems = l ++ r)
      (fun e t' => (e = .reparent ∧ H + 1 = treeMaxDepth) ∨
        e = .keyNotFound ∧ (∀ kv ∈ n.elems, collateRank env.cr kv.1 ≠ collateRank env.cr key) ∧
          WellFormed env.cr m t' n) := by
  refine (indexRemoveKeyNolock_sorted hl hw.holds hw.blocks hw.height hkey.1 (hw.keys.compares hcr hkey)
    hw.keys.strict hroom).mono (fun _ t' hpost => ?_) fun e t' herr => ?_
  · obtain ⟨l, kv, r, hn, h0, H', n', hholds, hok, hH', -, hn'⟩ := hpost
    refine ⟨l, kv, r, hn, cmpKey_eq_zero.mp h0, H', n', ⟨hholds, hok, hH', ?_⟩, hn'⟩
    have hkeys := hw.keys
    rw [hn] at hkeys
    rw [hn']
    exact hkeys.sublist ((List.Sublist.refl l).append (List.sublist_cons_self kv r))
  · have hheight := hw.height
    rcases herr with herr | ⟨he, hdeep⟩ | ⟨he, hne, hholds, -⟩
    · exact herr.elim
    · exact .inl ⟨he, by omega⟩
    · exact .inr ⟨he, fun kv hkv heq => hne kv hkv (cmpKey_eq_zero.mpr heq),
        hholds, hw.blocks, hw.height, hw.keys⟩

/-- A key in the root, before a short one. -/
theorem remove_refines_root :
    Ends (indexRemoveKeyNolock (countingEnv .binary) [4]) (memoryState (crowdedTree 0))
      (fun _ t' => ∃ l kv r, (crowdedTree 0).elems = l ++ kv :: r ∧
        collateRank .binary kv.1 = collateRank .binary [4] ∧
        ∃ (H' : ℕ) (n' : TNode (H' + 1)), WellFormed .binary countingModel t' n' ∧ n'.elems = l ++ r)
      (fun e t' => (e = .reparent ∧ 2 = treeMaxDepth) ∨
        e = .keyNotFound ∧ (∀ kv ∈ (crowdedTree 0).elems, collateRank .binary kv.1 ≠ collateRank .binary [4]) ∧
          WellFormed .binary countingModel t' (crowdedTree 0)) := by
  refine remove_refines (countingEnv_lawful .binary) (.inl rfl) (crowdedTree_wellFormed (by decide))
    ⟨by decide, by decide⟩ ⟨fun x hx h0 succ hsucc => ?_, ⟨trivial, trivial, fun _ _ => trivial⟩, fun x hx => ?_⟩
  · simp only [crowdedTree, Node.root_block, List.mem_cons, List.not_mem_nil, or_false] at hx
    rcases hx with rfl | rfl | rfl | rfl
    · exact absurd h0 (by decide)
    · obtain rfl : ([5], []) = succ := Option.some.inj hsucc
      rw [crowdedTree_used, ieLen_long]
      decide
    · exact absurd h0 (by decide)
    · exact absurd h0 (by decide)
  · simp only [crowdedTree, Node.root_block, List.mem_cons, List.not_mem_nil, or_false] at hx
    rcases hx with rfl | rfl | rfl | rfl
    all_goals exact ⟨trivial, trivial, fun _ _ => trivial⟩

/-- The key `[2]` is found in the root of the crowded tree. -/
theorem crowdedTree_root {i : ℕ} {B : List (TNode h × KeyValue)} {b d : TNode h} {kv : KeyValue}
    {A : List (KeyValue × TNode h)} {k : ℕ} {q : TPath (k + 2) (h + 1)}
    (hfill : (Path.down i B ((kv, d) :: A) q).fill b = crowdedTree k) (h0 : cmpKey .binary [2] kv = 0) :
    h = k + 1 := by
  let P : (h : ℕ) → Block ℕ KeyValue (TNode h) → Prop := fun h b =>
    ∀ x ∈ b.rest, cmpKey .binary [2] x.1 = 0 → h = k + 1
  have hP : ∀ h (b : Block ℕ KeyValue (TNode h)), (∀ kv ∈ b.rest.map Prod.fst, cmpKey .binary [2] kv ≠ 0) → P h b :=
    fun h b hb x hx h0 => absurd h0 (hb x.1 (List.mem_map_of_mem hx))
  have htower : ∀ i kv, cmpKey .binary [2] kv ≠ 0 → (tower k i kv).Forall P := fun i kv hkv =>
    (Node.forall_elems.mpr (by simpa using hkv)).imp_labels fun h b _ => hP h b
  have hall : (crowdedTree k).Forall P := by
    refine ⟨fun _ _ _ => rfl, htower _ _ (by decide), fun x hx => ?_⟩
    simp only [crowdedTree, Node.root_block, List.mem_cons, List.not_mem_nil, or_false] at hx
    rcases hx with rfl | rfl | rfl | rfl
    all_goals exact htower _ _ (by decide)
  have hs : Strict (cmpKey .binary [2]) (crowdedTree k).elems := (crowdedTree_keys k).strict
  rw [← hfill] at hall hs
  obtain ⟨hleft, hright⟩ := hs.sides h0
  have hplug := (Path.forall_fill (p := q) hP fun x hx => ?_).mp hall
  · exact hplug.1 (kv, d) (mem_chain B b (List.mem_cons_self ..)) h0
  · rcases List.mem_append.mp hx with hx | hx
    · exact (hleft x (by simp [hx])).ne
    · exact (hright x (by simp [hx])).ne'

/-- Under `CR_U64` removing a key of nine bytes fails an `ASSERT`; in a tree of `TREE_MAX_DEPTH` levels
removing a key fails if the root would have to move; and if the entry behind the key has no room in the
root, removing the key leaves that entry twice. -/
theorem remove_long_u64_key :
    (WellFormed .u64 countingModel (rootState [([1], [])]) (rootTree [([1], [])]) ∧
      Ends (indexRemoveKeyNolock (countingEnv .u64) [9, 8, 7, 6, 5, 4, 3, 2, 1]) (rootState [([1], [])])
        (fun _ _ => False) (fun e _ => e = .assertion)) ∧
    (WellFormed .binary countingModel (memoryState (crowdedTree 14)) (crowdedTree 14) ∧
      Ends (indexRemoveKeyNolock (countingEnv .binary) [2]) (memoryState (crowdedTree 14))
        (fun _ _ => False) (fun e _ => e = .reparent)) ∧
    WellFormed .binary countingModel (memoryState (crowdedTree 0)) (crowdedTree 0) ∧
      Ends (indexRemoveKeyNolock (countingEnv .binary) [2]) (memoryState (crowdedTree 0))
        (fun _ t' => ∃ (H' : ℕ) (n' : TNode (H' + 1)), HoldsTree countingModel t' n' ∧
          [([3], longValue), ([3], longValue)].Sublist n'.elems) (fun _ _ => False) := by
  have hshort : Collatable .binary [2] := ⟨by decide, by decide⟩
  refine ⟨⟨⟨rootState_holds _, rootTree_ok ⟨by decide, ?_⟩, by decide, ?_⟩, rfl⟩,
    ⟨crowdedTree_wellFormed (by decide), ?_⟩, crowdedTree_wellFormed (by decide), ?_⟩
  · intro kv hkv
    obtain rfl := List.mem_singleton.mp hkv
    exact keyValueOk_short 1
  · rw [rootTree_elems]
    exact ⟨by simp [Collatable], List.pairwise_singleton _ _⟩
  · have hw := crowdedTree_wellFormed (h := 14) (by decide)
    refine indexRemoveKeyNolock_cases (countingEnv_lawful .binary) hw.holds hw.blocks hw.height (by decide)
      (hw.keys.compares (.inl rfl) hshort) hw.keys.strict (fun t₁ i B b kv d A q _ hfill _ h0 _ => ?_)
      (fun t₁ h i B b kv b' A q hr hfill hp hb h0 => ?_) fun t₁ _ hne _ => ?_
    · exact absurd (crowdedTree_root hfill h0) (by decide)
    · obtain rfl : h = 14 := by
        have := crowdedTree_root hfill h0
        omega
      cases q with
      | down j B' A' q =>
        have hlen := q.spine_length
        omega
      | top =>
        have hroot : chain B b ((kv, b') :: A) = ((crowdedTree 14).root.first, (crowdedTree 14).root.rest) := by
          rw [← hfill]
          rfl
        cases B with
        | cons x B =>
          have hmem : (kv, b') ∈ (crowdedTree 14).root.rest.tail := by
            have hrest : (chain (x :: B) b ((kv, b') :: A)).2 = (crowdedTree 14).root.rest := congrArg Prod.snd hroot
            rw [← hrest]
            exact mem_chain B b (List.mem_cons_self ..)
          simp only [crowdedTree, Node.root_block, List.tail_cons, List.mem_cons, List.not_mem_nil, or_false,
            Prod.mk.injEq] at hmem
          rcases hmem with ⟨rfl, -⟩ | ⟨rfl, -⟩ | ⟨rfl, -⟩
          all_goals exact absurd h0 (by decide)
        | nil =>
          simp only [chain_nil, crowdedTree, Node.root_block, Prod.mk.injEq, List.cons.injEq] at hroot
          obtain ⟨rfl, ⟨rfl, rfl⟩, rfl⟩ := hroot
          refine (removeNode_deep (countingEnv_lawful .binary) (by decide) hr hp hb (tower_elems _ _) ?_).mono
            (fun _ _ h => h) fun _ _ h => h.elim False.elim id
          simp only [usedBytes, List.map_nil, List.nil_append, List.map_cons, sizeOfKvs_cons, sizeOfKvs_nil, ieLen_long]
          decide
    · exact absurd rfl (hne ([2], []) (by rw [crowdedTree_elems]; simp))
  · have hw := crowdedTree_wellFormed (h := 0) (by decide)
    refine (indexRemoveKeyNolock_full (countingEnv_lawful .binary) hw.holds hw.blocks hw.height (by decide)
      (hw.keys.compares (.inl rfl) hshort) hw.keys.strict (crowdedTree_full 0)).mono
      (fun _ t' hpost => ?_) fun e _ herr => ?_
    · obtain ⟨l, kv, r, succ, hn, h0, H', n', hholds, -, -, -, htwo, -⟩ := hpost
      have hsplit : (crowdedTree 0).elems = [([1], [])] ++ ([2], []) :: ([3], longValue) :: _ := crowdedTree_elems 0
      have hs : Strict (cmpKey .binary [2]) (crowdedTree 0).elems := hw.keys.strict
      rw [hn] at hs hsplit
      obtain ⟨-, -, hr⟩ := hs.split_unique hsplit h0 (by decide)
      obtain rfl : succ = ([3], longValue) := (List.cons.inj hr).1
      exact ⟨H', n', hholds, htwo⟩
    · exact herr.elim False.elim fun herr => absurd herr.2 (by decide)

end IndexFs.Tree
