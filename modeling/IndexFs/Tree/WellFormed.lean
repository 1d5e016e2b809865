import IndexFs.Tree.Represent

/-!
# Well-formed trees

`BlockOk`, `NodeOk`, `PathOk` and `TreeOk` say what the blocks of a tree must satisfy
besides what `Node` and `image` give by construction: every entry is within the
limits, every block fits its size, and no leaf but the root is empty.

* `treeOk_fill`: a tree is well-formed if a position in it and the tree there are.
* `split_cases`, `SplitOk`: where the middle entry of an overfull block lies, and why
  both halves are well-formed blocks with room for the pending entry.
-/

namespace IndexFs.Tree

open IndexFs.Multiway

variable {H h : ℕ}

theorem image_usedBytes {alloc : ℕ} {large : Bool} {before : List (ℕ × KeyValue)} {c : ℕ}
    {after : List (KeyValue × ℕ)} : (image alloc large before c after).realSize =
      usedBytes large (before.map Prod.snd ++ after.map Prod.fst) := by
  rw [image_realSize, usedBytes, sizeOfKvs_append, posOf]
  omega

/-- The entries of a block are within the limits and fit into it. -/
structure BlockOk (alloc h : ℕ) (kvs : List KeyValue) : Prop where
  fits : usedBytes (isLarge h) kvs ≤ alloc
  entries : ∀ kv ∈ kvs, KeyValueOk kv

/-- The blocks of a tree below the root. -/
def NodeOk (n : TNode h) : Prop :=
  n.Forall fun h b => BlockOk blockSize h (b.rest.map Prod.fst) ∧ (h = 0 → b.rest ≠ [])

/-- The blocks above a hole and beside the way to it. The block at the hole may lack an entry. -/
def PathOk : {h : ℕ} → TPath H h → Prop
  | _, .top => True
  | h, .down _ before after up =>
    BlockOk (allocOf up) h (before.map Prod.snd ++ after.map Prod.fst) ∧
      (∀ x ∈ before, NodeOk x.1) ∧ (∀ x ∈ after, NodeOk x.2) ∧ PathOk up

/-- A tree with its root block in the inode. -/
structure TreeOk (n : TNode (H + 1)) : Prop where
  root : BlockOk attrRecordContentSize H (n.root.rest.map Prod.fst)
  first : NodeOk n.root.first
  rest : ∀ x ∈ n.root.rest, NodeOk x.2

@[simp] theorem nodeOk_zero (n : TNode 0) : NodeOk n := trivial

theorem nodeOk_plug {i : ℕ} {before : List (TNode h × KeyValue)} {c : TNode h}
    {after : List (KeyValue × TNode h)} : NodeOk (Node.plug i before c after) ↔
      (BlockOk blockSize h (before.map Prod.snd ++ after.map Prod.fst) ∧
        (h = 0 → before ≠ [] ∨ after ≠ [])) ∧
      (∀ x ∈ before, NodeOk x.1) ∧ NodeOk c ∧ ∀ x ∈ after, NodeOk x.2 := by
  unfold NodeOk
  rw [Node.forall_plug]
  dsimp only
  rw [entries_chain]
  have hne : (chain before c after).2 ≠ [] ↔ before ≠ [] ∨ after ≠ [] := by
    cases before with
    | nil => simp
    | cons x before => simp [chain]
  rw [hne]

theorem PathOk.relabel {p : TPath H h} (hp : PathOk p) (l : List ℕ) : PathOk (p.relabel l) := by
  induction p generalizing l with
  | top => simpa using hp
  | down i before after up ih =>
    obtain ⟨hblock, hbefore, hafter, hup⟩ := hp
    cases l with
    | nil => exact ⟨hblock, hbefore, hafter, hup⟩
    | cons j l => exact ⟨by rw [allocOf_relabel]; exact hblock, hbefore, hafter, ih hup l⟩

/-- The block at the hole has an entry. -/
def HasEntry (p : TPath H h) : Prop :=
  match p with
  | .top => True
  | .down _ before after _ => before ≠ [] ∨ after ≠ []

/-- A well-formed position with a well-formed tree there is a well-formed tree; a
leaf other than the root must not be empty. -/
theorem treeOk_fill {p : TPath (H + 1) h} {c : TNode h} (hp : PathOk p) (hc : NodeOk c)
    (hne : h ≠ H + 1) (hleaf : h = 0 → H ≠ 0 → HasEntry p) : TreeOk (p.fill c) := by
  induction p with
  | top => exact absurd rfl hne
  | @down h i before after up ih =>
    obtain ⟨hblock, hbefore, hafter, hup⟩ := hp
    cases up with
    | top =>
      have hfill : (Path.down i before after .top).fill c = Node.plug i before c after := rfl
      have hall := (forall_chain NodeOk before c after).mpr ⟨hbefore, hc, hafter⟩
      rw [hfill]
      unfold Node.plug
      refine ⟨?_, hall.1, hall.2⟩
      rw [Node.root_block, entries_chain]
      exact hblock
    | down j b a up =>
      have hlen := up.spine_length
      refine ih hup (nodeOk_plug.mpr ⟨⟨hblock, fun h0 => ?_⟩, hbefore, hc, hafter⟩) (by omega)
        fun h0 => absurd h0 (Nat.succ_ne_zero h)
      exact hleaf h0 (by omega)

/-! ## Splitting an overfull block -/

section Split

variable {before B : List (TNode h × KeyValue)} {c mch a : TNode h} {kv mkv : KeyValue}
  {after A : List (KeyValue × TNode h)}

/-- The middle entry lies before the cursor, or at it or behind it. -/
theorem split_cases (hchain : chain B mch ((mkv, a) :: A) = chain before c after) :
    (∃ B₂, before = B ++ (mch, mkv) :: B₂ ∧ chain B₂ c after = (a, A)) ∨
      ∃ D D', B = before ++ D ∧ chain D mch [] = (c, D') ∧ after = D' ++ (mkv, a) :: A := by
  rcases chain_eq_chain hchain.symm with ⟨D, rfl, hD⟩ | ⟨D, rfl, hD⟩
  · cases D with
    | nil =>
      simp only [chain_nil, Prod.mk.injEq] at hD
      exact .inr ⟨[], [], by simp, by simp [hD.1], by simp [hD.2]⟩
    | cons x D =>
      simp only [chain, Prod.mk.injEq, List.cons.injEq] at hD
      obtain ⟨hx, ⟨hkv, hfst⟩, hsnd⟩ := hD
      exact .inl ⟨D, by rw [← hx, ← hkv], Prod.ext hfst hsnd⟩
  · have happ := chain_append D mch [] ((mkv, a) :: A)
    rw [List.nil_append, hD] at happ
    exact .inr ⟨D, (chain D mch []).2, rfl, Prod.ext (congrArg Prod.fst happ).symm rfl,
      congrArg Prod.snd happ⟩

theorem sizeOfKvs_perm_chain (large : Bool) {before' : List (TNode h × KeyValue)} {c' : TNode h}
    {after' : List (KeyValue × TNode h)} (hchain : chain before c after = chain before' c' after') :
    sizeOfKvs large (before.map Prod.snd ++ after.map Prod.fst) =
      sizeOfKvs large (before'.map Prod.snd ++ after'.map Prod.fst) := by
  rw [← entries_chain before c after, hchain, entries_chain]

/-- What the choice of the middle entry of an overfull block guarantees: either half has room for
the pending entry and keeps an entry without it. -/
structure MiddleOk (large : Bool) (kv : KeyValue) (B : List (TNode h × KeyValue)) (mkv : KeyValue)
    (A : List (KeyValue × TNode h)) : Prop where
  left_fits : usedBytes large (B.map Prod.snd) + ieLen large kv ≤ blockSize
  right_fits : usedBytes large (A.map Prod.fst) + ieLen large kv ≤ blockSize
  left_ne : B ≠ []
  right_ne : A ≠ []
  entries : (∀ x ∈ B, KeyValueOk x.2) ∧ KeyValueOk mkv ∧ ∀ x ∈ A, KeyValueOk x.1

theorem flatBefore_snd (l : List (TNode h × KeyValue)) :
    (flatBefore l).map Prod.snd = l.map Prod.snd := by
  unfold flatBefore
  rw [List.map_map]
  rfl

theorem flatAfter_fst (l : List (KeyValue × TNode h)) :
    (flatAfter l).map Prod.fst = l.map Prod.fst := by
  unfold flatAfter
  rw [List.map_map]
  rfl

/-- The part of it about sizes and numbers of entries. -/
structure MiddleFits (large : Bool) (kv : KeyValue) (B : List (TNode h × KeyValue)) (A : List (KeyValue × TNode h)) :
    Prop where
  left_fits : usedBytes large (B.map Prod.snd) + ieLen large kv ≤ blockSize
  right_fits : usedBytes large (A.map Prod.fst) + ieLen large kv ≤ blockSize
  left_ne : B ≠ []
  right_ne : A ≠ []

/-- `sizeof(index_entry_t) + KEY_MAX_SIZE + VALUE_MAX_SIZE + VBN_SIZE`. -/
def entryMaxSize : ℕ := entrySize + keyMaxSize + valueMaxSize + vbnSize

theorem ieLen_le_max {large : Bool} (hkv : KeyValueOk kv) : ieLen large kv ≤ entryMaxSize := ieLen_le hkv

/-- `get_middle_ie` on a block that has no room for the entry `kv`. -/
theorem getMiddleIe_fits
    (hmax : ∀ kv' ∈ kv :: (before.map Prod.snd ++ after.map Prod.fst), ieLen (isLarge h) kv' ≤ entryMaxSize)
    (hfits : usedBytes (isLarge h) (before.map Prod.snd ++ after.map Prod.fst) ≤ blockSize)
    (hover : blockSize <
      usedBytes (isLarge h) (before.map Prod.snd ++ after.map Prod.fst) + ieLen (isLarge h) kv) :
    ∃ B mch mkv a A, chain B mch ((mkv, a) :: A) = chain before c after ∧
      getMiddleIe (image blockSize (isLarge h) (flatBefore before) (num c) (flatAfter after)) =
        cursorAt B ∧ MiddleFits (isLarge h) kv B A := by
  have hk : ieLen (isLarge h) kv ≤ 1297 := hmax kv List.mem_cons_self
  have hreal : (image blockSize (isLarge h) (flatBefore before) (num c) (flatAfter after)).realSize =
      usedBytes (isLarge h) (before.map Prod.snd ++ after.map Prod.fst) := by
    rw [image_usedBytes, flatBefore_snd, flatAfter_fst]
  have h33 : indexBlockSize = 33 := rfl
  have h4096 : blockSize = 4096 := rfl
  have hne : (chain (flatBefore before) (num c) (flatAfter after)).2 ≠ [] := by
    intro hnil
    have hentries := entries_chain (flatBefore before) (num c) (flatAfter after)
    rw [hnil, flatBefore_snd, flatAfter_fst] at hentries
    rw [← hentries, List.map_nil] at hover
    unfold usedBytes at hover
    rw [sizeOfKvs_nil] at hover
    have hend := endLen_bounds (isLarge h)
    omega
  obtain ⟨B', m', mkv, a', A', hchain', hmid, hlt, hle⟩ := getMiddleIe_image hne
  have hflat : chain (flatBefore before) (num c) (flatAfter after) =
      (num (chain before c after).1, (chain before c after).2.map fun x => (x.1, num x.2)) :=
    chain_map num before c after
  obtain ⟨B, mch, A'', hchain, rfl, rfl, hA⟩ := exists_chain_of_map num (hchain'.trans hflat)
  obtain ⟨⟨mkv', a⟩, A, rfl, hx, rfl⟩ := List.map_eq_cons_iff.mp hA.symm
  obtain ⟨rfl, rfl⟩ := Prod.mk.inj hx
  refine ⟨B, mch, mkv', a, A, hchain, hmid, ?_⟩
  have hB : (List.map (fun x : TNode h × KeyValue => (num x.1, x.2)) B).map Prod.snd = B.map Prod.snd :=
    flatBefore_snd B
  have hsum := sizeOfKvs_perm_chain (isLarge h) hchain
  have hm : ieLen (isLarge h) mkv' ≤ 1297 := by
    refine hmax mkv' (List.mem_cons_of_mem _ ?_)
    rw [← entries_chain before c after, ← congrArg Prod.snd hchain, entries_chain]
    simp
  have hend := endLen_bounds (isLarge h)
  rw [hreal, hB] at hlt hle
  dsimp only at hle
  simp only [List.map_cons, sizeOfKvs_append, sizeOfKvs_cons] at hsum
  unfold usedBytes at hlt hle hover hfits
  rw [sizeOfKvs_append] at hlt hle hover hfits
  refine ⟨?_, ?_, ?_, ?_⟩
  · unfold usedBytes
    omega
  · unfold usedBytes
    omega
  · intro hnil
    rw [hnil] at hle
    simp only [List.map_nil, sizeOfKvs_nil] at hle
    omega
  · intro hnil
    rw [hnil] at hsum
    simp only [List.map_nil, sizeOfKvs_nil] at hsum
    omega

theorem getMiddleIe_overfull (hblock : BlockOk blockSize h (before.map Prod.snd ++ after.map Prod.fst))
    (hkv : KeyValueOk kv) (hover : blockSize <
      usedBytes (isLarge h) (before.map Prod.snd ++ after.map Prod.fst) + ieLen (isLarge h) kv) :
    ∃ B mch mkv a A, chain B mch ((mkv, a) :: A) = chain before c after ∧
      getMiddleIe (image blockSize (isLarge h) (flatBefore before) (num c) (flatAfter after)) =
        cursorAt B ∧ MiddleOk (isLarge h) kv B mkv A := by
  have hmax : ∀ kv' ∈ kv :: (before.map Prod.snd ++ after.map Prod.fst), ieLen (isLarge h) kv' ≤ entryMaxSize :=
    List.forall_mem_cons.mpr ⟨ieLen_le_max hkv, fun kv' hkv' => ieLen_le_max (hblock.entries kv' hkv')⟩
  obtain ⟨B, mch, mkv, a, A, hchain, hmid, hfits⟩ := getMiddleIe_fits (c := c) hmax hblock.fits hover
  have hkvs : B.map Prod.snd ++ mkv :: A.map Prod.fst = before.map Prod.snd ++ after.map Prod.fst := by
    rw [← entries_chain before c after, ← congrArg Prod.snd hchain, entries_chain]
    rfl
  have hentries : ∀ kv ∈ B.map Prod.snd ++ mkv :: A.map Prod.fst, KeyValueOk kv := fun kv' hkv' =>
    hblock.entries kv' (hkvs ▸ hkv')
  refine ⟨B, mch, mkv, a, A, hchain, hmid, hfits.left_fits, hfits.right_fits, hfits.left_ne, hfits.right_ne,
    fun x hx => hentries _ ?_, hentries _ (by simp), fun x hx => hentries _ ?_⟩
  · exact List.mem_append_left _ (List.mem_map_of_mem hx)
  · exact List.mem_append_right _ (List.mem_cons_of_mem _ (List.mem_map_of_mem hx))

end Split

end IndexFs.Tree
