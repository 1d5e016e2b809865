import IndexFs.Tree.RemoveKey

/-!
# What `split_ib` makes of one block

Here nothing is known about the blocks but their layout and the lengths of their
entries: no order of the keys, no limits on the rest of the tree.

* `kvsOf`, `childrenOf`: the entries of a block and the numbers of its children.
* `ProperBlock`: what a reader of a block relies on.
* `split_step`: the blocks and the entry that `split_ib` leaves.
-/

namespace IndexFs.Tree

open IndexFs.Multiway

variable {σ : Type} {m : ContainerModel σ} {t : ObjectTree σ} {H h : ℕ} {env : TreeEnv σ} {fails : Prop}

/-- The entries without the END entry. -/
def kvsOf (ib : IndexBlock) : List KeyValue := ib.entries.dropLast.map fun e => (e.key, e.value)

/-- The child numbers, that of the END entry last. -/
def childrenOf (ib : IndexBlock) : List ℕ := ib.entries.map IndexEntry.vbn

/-- A block below the root with its END entry, whose lengths add up. -/
structure ProperBlock (ib : IndexBlock) : Prop where
  alloc : ib.allocSize = blockSize
  fits : ib.realSize ≤ ib.allocSize
  size : ib.realSize = indexBlockSize + (ib.entries.map IndexEntry.len).sum
  prevs : ib.entries.map IndexEntry.prevLen = (entrySize :: ib.entries.map IndexEntry.len).dropLast
  ends : ∃ init last, ib.entries = init ++ [last] ∧ last.isEnd = true ∧ last.len = endLen ib.large ∧
    ∀ e ∈ init, e.isEnd = false
  flags : ∀ e ∈ ib.entries, e.isNode = ib.large ∧ e.isBegin = false

/-! ## The entries of an image -/

section Image

variable {large : Bool}

@[simp] theorem mkIe_prevLen (prev c : ℕ) (kv : KeyValue) : (mkIe large prev c kv).prevLen = prev := rfl

@[simp] theorem mkIe_len (prev c : ℕ) (kv : KeyValue) : (mkIe large prev c kv).len = ieLen large kv := rfl

theorem mkEnd_len (prev c : ℕ) : (mkEnd large prev c).len = endLen large := rfl

theorem map_prevLen_image (prev c : ℕ) (after : List (KeyValue × ℕ)) :
    (headIe large prev c after :: tailIes large after).map IndexEntry.prevLen =
      (prev :: (headIe large prev c after :: tailIes large after).map IndexEntry.len).dropLast := by
  induction after generalizing prev c with
  | nil => rfl
  | cons x after ih =>
    obtain ⟨kv, c'⟩ := x
    rw [headIe_cons, tailIes_cons, List.map_cons, ih (ieLen large kv) c']
    rfl

theorem sum_len_image (prev c : ℕ) (after : List (KeyValue × ℕ)) :
    ((headIe large prev c after :: tailIes large after).map IndexEntry.len).sum =
      sizeOfKvs large (after.map Prod.fst) + endLen large := by
  induction after generalizing prev c with
  | nil => simp [headIe, tailIes, mkEnd_len]
  | cons x after ih =>
    obtain ⟨kv, c'⟩ := x
    rw [headIe_cons, tailIes_cons, List.map_cons, List.sum_cons, ih (ieLen large kv) c', List.map_cons,
      sizeOfKvs_cons, mkIe_len, Nat.add_assoc]

theorem ends_image (large : Bool) (prev c : ℕ) (after : List (KeyValue × ℕ)) :
    ∃ init last, headIe large prev c after :: tailIes large after = init ++ [last] ∧ last.isEnd = true ∧
      last.len = endLen large ∧ (∀ e ∈ init, e.isEnd = false) ∧
      init.map (fun e => (e.key, e.value)) = after.map Prod.fst := by
  induction after generalizing prev c with
  | nil => exact ⟨[], mkEnd large prev c, rfl, rfl, rfl, by simp, rfl⟩
  | cons x after ih =>
    obtain ⟨init, last, hinit, hend, hlen, hnot, hkvs⟩ := ih (ieLen large x.1) x.2
    refine ⟨mkIe large prev c x.1 :: init, last, ?_, hend, hlen, List.forall_mem_cons.mpr ⟨rfl, hnot⟩, ?_⟩
    · rw [headIe_cons, tailIes_cons, hinit, List.cons_append]
    · rw [List.map_cons, hkvs]
      rfl

theorem flags_image (prev c : ℕ) (after : List (KeyValue × ℕ)) :
    ∀ e ∈ headIe large prev c after :: tailIes large after, e.isNode = large ∧ e.isBegin = false := by
  induction after generalizing prev c with
  | nil => simp [tailIes]
  | cons x after ih => exact List.forall_mem_cons.mpr ⟨⟨rfl, rfl⟩, ih (ieLen large x.1) x.2⟩

theorem vbns_image (prev c : ℕ) (after : List (KeyValue × ℕ)) :
    (headIe large prev c after :: tailIes large after).map IndexEntry.vbn =
      (c :: after.map Prod.snd).map fun v => if large then v else 0 := by
  induction after generalizing prev c with
  | nil => rfl
  | cons x after ih =>
    obtain ⟨kv, c'⟩ := x
    rw [headIe_cons, tailIes_cons, List.map_cons, ih (ieLen large kv) c']
    rfl

theorem image_entries (alloc : ℕ) (large : Bool) (before : List (ℕ × KeyValue)) (c : ℕ) (after : List (KeyValue × ℕ)) :
    (image alloc large before c after).entries =
      headIe large entrySize (chain before c after).1 (chain before c after).2 ::
        tailIes large (chain before c after).2 := by
  rw [image_chain]
  rfl

end Image

variable {before : List (TNode h × KeyValue)} {c : TNode h} {after : List (KeyValue × TNode h)}

theorem kvsOf_image (alloc : ℕ) : kvsOf (image alloc (isLarge h) (flatBefore before) (num c) (flatAfter after)) =
    before.map Prod.snd ++ after.map Prod.fst := by
  unfold kvsOf
  rw [image_entries]
  obtain ⟨init, last, hinit, -, -, -, hkvs⟩ := ends_image (isLarge h) entrySize
    (chain (flatBefore before) (num c) (flatAfter after)).1 (chain (flatBefore before) (num c) (flatAfter after)).2
  rw [hinit, List.dropLast_concat, hkvs, entries_chain, flatBefore_snd, flatAfter_fst]

/-- The children of a block, cut at one of them. -/
theorem children_chain {α β : Type} (before : List (β × α)) (c : β) (after : List (α × β)) :
    (chain before c after).1 :: (chain before c after).2.map Prod.snd =
      before.map Prod.fst ++ c :: after.map Prod.snd := by
  induction before with
  | nil => rfl
  | cons x before ih => rw [chain, List.map_cons, ih, List.map_cons, List.cons_append]

theorem childrenOf_image (alloc : ℕ) :
    childrenOf (image alloc (isLarge h) (flatBefore before) (num c) (flatAfter after)) =
      before.map (fun x => num x.1) ++ num c :: after.map fun x => num x.2 := by
  have hchain := children_chain (flatBefore before) (num c) (flatAfter after)
  have hflat : (flatBefore before).map Prod.fst ++ num c :: (flatAfter after).map Prod.snd =
      before.map (fun x => num x.1) ++ num c :: after.map fun x => num x.2 := by
    unfold flatBefore flatAfter
    rw [List.map_map, List.map_map]
    rfl
  have hnum : ∀ n : TNode h, (if isLarge h then num n else 0) = num n := by
    intro n
    cases h <;> rfl
  unfold childrenOf
  rw [image_entries, vbns_image, hchain, hflat]
  simp only [List.map_append, List.map_cons, List.map_map, Function.comp_def, hnum]

/-- An image that fits its size is proper. -/
theorem properBlock_image
    (hfits : usedBytes (isLarge h) (before.map Prod.snd ++ after.map Prod.fst) ≤ blockSize) :
    ProperBlock (image blockSize (isLarge h) (flatBefore before) (num c) (flatAfter after)) := by
  have hsize : (image blockSize (isLarge h) (flatBefore before) (num c) (flatAfter after)).realSize =
      usedBytes (isLarge h) (before.map Prod.snd ++ after.map Prod.fst) := tree_image_size
  have hentries := image_entries blockSize (isLarge h) (flatBefore before) (num c) (flatAfter after)
  have hfst := entries_chain (flatBefore before) (num c) (flatAfter after)
  rw [flatBefore_snd, flatAfter_fst] at hfst
  refine ⟨rfl, hsize.trans_le hfits, ?_, ?_, ?_, ?_⟩
  · rw [hsize, hentries, sum_len_image, hfst]
    unfold usedBytes
    omega
  · rw [hentries]
    exact map_prevLen_image _ _ _
  · rw [hentries, image_large]
    obtain ⟨init, last, hinit, hend, hlen, hnot, -⟩ := ends_image (isLarge h) entrySize
      (chain (flatBefore before) (num c) (flatAfter after)).1 (chain (flatBefore before) (num c) (flatAfter after)).2
    exact ⟨init, last, hinit, hend, hlen, hnot⟩
  · rw [hentries, image_large]
    exact flags_image _ _ _

/-! ## The step -/

/-- `left`, the entry `mid` and `right` are the entries `kvs` and the children `vbns`, in this order.
The END entry of `left` has the child before `mid`. -/
structure SplitBlocks (kvs : List KeyValue) (vbns : List ℕ) (left : IndexBlock) (mid : IndexEntry)
    (right : IndexBlock) : Prop where
  entries : kvsOf left ++ (mid.key, mid.value) :: kvsOf right = kvs
  children : childrenOf left ++ childrenOf right = vbns
  left_ne : kvsOf left ≠ []
  right_ne : kvsOf right ≠ []
  left_proper : ProperBlock left
  right_proper : ProperBlock right

variable {d : TNode h} {kv : KeyValue}

/-- The blocks are the images of `Bl cl Al` and `Br cr Ar`. -/
theorem SplitBlocks.of_images {Bl Br : List (TNode h × KeyValue)} {cl cr : TNode h}
    {Al Ar : List (KeyValue × TNode h)} {mid : IndexEntry} {mkv : KeyValue}
    (hmid : (mid.key, mid.value) = mkv)
    (hkvs : Bl.map Prod.snd ++ Al.map Prod.fst ++ mkv :: (Br.map Prod.snd ++ Ar.map Prod.fst) =
      before.map Prod.snd ++ kv :: after.map Prod.fst)
    (hvbns : Bl.map (fun x => num x.1) ++ num cl :: Al.map (fun x => num x.2) ++
      (Br.map (fun x => num x.1) ++ num cr :: Ar.map fun x => num x.2) =
      before.map (fun x => num x.1) ++ num d :: num c :: after.map fun x => num x.2)
    (hl : usedBytes (isLarge h) (Bl.map Prod.snd ++ Al.map Prod.fst) ≤ blockSize)
    (hr : usedBytes (isLarge h) (Br.map Prod.snd ++ Ar.map Prod.fst) ≤ blockSize)
    (hlne : Bl.map Prod.snd ++ Al.map Prod.fst ≠ []) (hrne : Br.map Prod.snd ++ Ar.map Prod.fst ≠ []) :
    SplitBlocks (before.map Prod.snd ++ kv :: after.map Prod.fst)
      (before.map (fun x => num x.1) ++ num d :: num c :: after.map fun x => num x.2)
      (image blockSize (isLarge h) (flatBefore Bl) (num cl) (flatAfter Al)) mid
      (image blockSize (isLarge h) (flatBefore Br) (num cr) (flatAfter Ar)) where
  entries := by rw [kvsOf_image, kvsOf_image, hmid, hkvs]
  children := by rw [childrenOf_image, childrenOf_image, hvbns]
  left_ne := by rwa [kvsOf_image]
  right_ne := by rwa [kvsOf_image]
  left_proper := properBlock_image hl
  right_proper := properBlock_image hr

/-- `split_ib` on a full block with a pending entry, wherever its place in the block is. -/
theorem split_step (hl : LawfulEnv env m fails) {i i₂ prev : ℕ} {ie : IndexEntry}
    {B₂ : List (TNode (h + 1) × KeyValue)} {A₂ : List (KeyValue × TNode (h + 1))} {up₂ : TPath H (h + 2)}
    {X : List ℕ} (hr : Rep m t (.down i before after (.down i₂ B₂ A₂ up₂)) c (d.labels ++ X))
    (hd : Held m t d) (hie : ie = mkIe (isLarge h) prev (num d) kv)
    (hmax : ∀ kv' ∈ kv :: (before.map Prod.snd ++ after.map Prod.fst), ieLen (isLarge h) kv' ≤ entryMaxSize)
    (hfits : usedBytes (isLarge h) (before.map Prod.snd ++ after.map Prod.fst) ≤ blockSize)
    (hover : blockSize <
      usedBytes (isLarge h) (before.map Prod.snd ++ after.map Prod.fst) + ieLen (isLarge h) kv) :
    Ends (splitIb env ie) t
      (fun mid t' => ∃ n left right, blockAt m t' mid.vbn = some left ∧ blockAt m t' n = some right ∧
        mid.isNode = true ∧ mid.isEnd = false ∧
        SplitBlocks (before.map Prod.snd ++ kv :: after.map Prod.fst)
          (before.map (fun x => num x.1) ++ num d :: num c :: after.map fun x => num x.2) left mid right)
      (fun _ _ => fails) := by
  obtain ⟨B, mch, mkv, a, A, hchain, hmiddle, hmid⟩ := getMiddleIe_fits hmax hfits hover
  have hkvs : B.map Prod.snd ++ mkv :: A.map Prod.fst = before.map Prod.snd ++ after.map Prod.fst := by
    rw [← entries_chain before c after, ← congrArg Prod.snd hchain, entries_chain]
    rfl
  have hmkv : ieLen (isLarge h) mkv ≤ entryMaxSize := by
    refine hmax mkv (List.mem_cons_of_mem _ ?_)
    rw [← hkvs]
    simp
  have hsmall : ieLen true mkv < 2 ^ 16 := by
    have h1297 : ieLen (isLarge h) mkv ≤ 1297 := hmkv
    unfold ieLen vbnSize at h1297 ⊢
    rw [if_pos rfl]
    omega
  have hleft := hmid.left_fits
  have hright := hmid.right_fits
  rcases split_cases hchain with ⟨Br, hB, hcut⟩ | ⟨D, D', hB, hcut, hA⟩
  · refine (splitIb_behind hl hr hd hie hchain hmiddle hmid.right_fits hB hcut).mono
      (fun mid t' hpost => ?_) fun _ _ h => h
    obtain ⟨j, n, l, -, rfl, hr', hl', -⟩ := hpost
    have hcutkvs : A.map Prod.fst = Br.map Prod.snd ++ after.map Prod.fst := by
      rw [← entries_chain Br c after, hcut]
    rw [dumpIeAddVbn_mkIe hsmall]
    refine ⟨n, _, _, (held_plug.mp hl').1, (held_plug.mp hr'.child).1, rfl, rfl,
      .of_images (rfl : _ = mkv) ?_ ?_ ?_ ?_ ?_ ?_⟩
    · simp [hB]
    · simp [hB]
    · simp only [List.map_nil, List.append_nil]
      omega
    · unfold usedBytes at hright ⊢
      rw [hcutkvs, sizeOfKvs_append] at hright
      rw [sizeOfKvs_append, List.map_cons, sizeOfKvs_cons]
      dsimp only
      omega
    · simpa using hmid.left_ne
    · simp
  · refine (splitIb_ahead hl hr hd hie hchain hmiddle hmid.left_fits hB hcut hA).mono
      (fun mid t' hpost => ?_) fun _ _ h => h
    obtain ⟨j, n, l, -, rfl, hr', hl', -⟩ := hpost
    have hBkvs : B.map Prod.snd = before.map Prod.snd ++ D'.map Prod.fst := by
      have hDkvs := entries_chain D mch []
      rw [hcut] at hDkvs
      rw [hB, List.map_append, hDkvs, List.map_nil, List.append_nil]
    rw [dumpIeAddVbn_mkIe hsmall]
    refine ⟨n, _, _, (held_plug.mp hl').1, (held_plug.mp hr'.child).1, rfl, rfl,
      .of_images (rfl : _ = mkv) ?_ ?_ ?_ ?_ ?_ ?_⟩
    · simp [hA]
    · simp [hA]
    · unfold usedBytes at hleft ⊢
      rw [hBkvs, sizeOfKvs_append] at hleft
      rw [sizeOfKvs_append, List.map_cons, sizeOfKvs_cons]
      dsimp only
      omega
    · simp only [List.map_nil, List.nil_append]
      omega
    · simp
    · simpa using hmid.right_ne

/-- A leaf with three entries of 1034 bytes below the root. -/
def fullLeafTree : TNode 2 :=
  Node.block 1 (Node.block 2 Node.nil
    [(([1], longValue), Node.nil), (([3], longValue), Node.nil), (([5], longValue), Node.nil)]) []

/-- A fourth entry goes before the entries of a full leaf. -/
theorem split_step_leaf : Ends (splitIb (countingEnv .binary) (mkIe false 0 0 ([0], longValue)))
    { memoryState fullLeafTree with stack := [⟨.block 2, indexBlockSize⟩, ⟨.root, indexBlockSize⟩] }
    (fun mid t' => ∃ n left right, blockAt countingModel t' mid.vbn = some left ∧
      blockAt countingModel t' n = some right ∧ mid.isNode = true ∧ mid.isEnd = false ∧
      SplitBlocks [([0], longValue), ([1], longValue), ([3], longValue), ([5], longValue)] [0, 0, 0, 0, 0]
        left mid right)
    (fun _ _ => False) := by
  have hlen : ∀ k : UInt8, ieLen (isLarge 0) ([k], longValue) = 1034 := fun k => by
    change entrySize + 1 + longValue.length + 0 = 1034
    rw [longValue_length]
    rfl
  have ht : HoldsTree countingModel (memoryState fullLeafTree) fullLeafTree :=
    memoryState_holds (by decide) (by decide)
  have hroot := ht.reset (setStack_cursorOnly _) rfl
  have hleaf := Rep.push (B := []) (X := (Node.nil : TNode 0).labels ++ []) hroot rfl (setStack_cursorOnly _) rfl
  refine split_step (countingEnv_lawful .binary) hleaf trivial rfl ?_ ?_ ?_
  · intro kv' hkv'
    simp only [List.map_nil, List.nil_append, List.map_cons, List.mem_cons, List.not_mem_nil, or_false] at hkv'
    rcases hkv' with rfl | rfl | rfl | rfl
    all_goals exact (hlen _).trans_le (by decide)
  · simp only [usedBytes, List.map_nil, List.nil_append, List.map_cons, sizeOfKvs_cons, sizeOfKvs_nil, hlen]
    decide
  · simp only [usedBytes, List.map_nil, List.nil_append, List.map_cons, sizeOfKvs_cons, sizeOfKvs_nil, hlen]
    decide

end IndexFs.Tree
