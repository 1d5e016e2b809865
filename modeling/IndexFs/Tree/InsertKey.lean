import IndexFs.Tree.Insert
import IndexFs.Tree.Search

/-!
# `index_insert_key_nolock`

`WellFormed` puts together what a tree of an object must satisfy: the state holds it,
its blocks are well-formed, it is not higher than the cursor can follow, and its keys
can be compared and increase.

Results:
* `WellFormed.search`: `search_key_internal` on a well-formed tree finds the equal key, or
  the place between the smaller and the larger keys.
* `indexInsertKeyNolock_spec`: inserting a key, for any container.
* `insert_refines`: if the container does not fail, the key is added at its place, or it
  is there already and nothing changes.
* `insert_long_u64_key`: a key that `CR_U64` cannot decode, and a container that fails to
  free a block.
-/

namespace IndexFs.Tree

open IndexFs.Multiway IndexFs.Collate

variable {σ : Type} {m : ContainerModel σ} {t t' : ObjectTree σ} {H h : ℕ} {env : TreeEnv σ} {fails : Prop}
  {X : List ℕ} {key value : Bytes} {cr : CollateRule}

/-! ## Well-formed trees -/

/-- The keys of some entries can be compared and increase strictly. -/
structure KeysOk (cr : CollateRule) (l : List KeyValue) : Prop where
  collatable : ∀ kv ∈ l, Collatable cr kv.1
  sorted : l.Pairwise fun a b => collateRank cr a.1 < collateRank cr b.1

/-- The state holds the well-formed tree `n`. -/
structure WellFormed (cr : CollateRule) (m : ContainerModel σ) (t : ObjectTree σ) (n : TNode (H + 1)) :
    Prop where
  holds : HoldsTree m t n
  blocks : TreeOk n
  height : H + 1 ≤ treeMaxDepth
  keys : KeysOk cr n.elems

/-- The depth of the tree as the handle knows it when a search has missed: a root without
children does not set it. -/
def knownDepth (t : ObjectTree σ) (H : ℕ) : ℕ := if H = 0 then t.maxDepth else H

/-- What a stored entry compares to under the search for `key`. -/
def cmpKey (cr : CollateRule) (key : Bytes) (kv : KeyValue) : ℤ :=
  collateOrd (collateRank cr kv.1) (collateRank cr key)

@[simp] theorem cmpKey_neg {kv : KeyValue} :
    cmpKey cr key kv < 0 ↔ collateRank cr kv.1 < collateRank cr key := collateOrd_neg

@[simp] theorem cmpKey_pos {kv : KeyValue} :
    0 < cmpKey cr key kv ↔ collateRank cr key < collateRank cr kv.1 := collateOrd_pos

@[simp] theorem cmpKey_eq_zero {kv : KeyValue} :
    cmpKey cr key kv = 0 ↔ collateRank cr kv.1 = collateRank cr key := collateOrd_eq_zero

theorem KeysOk.compares {l : List KeyValue} (hcr : cr.Ranked) (hl : KeysOk cr l)
    (hkey : Collatable cr key) : Compares cr key value (cmpKey cr key) l := by
  intro kv hkv ie hie _
  have hcoll := hl.collatable kv hkv
  rw [← hie] at hcoll
  rw [collateKey_eq_ord hcr hcoll hkey, hie]
  rfl

theorem KeysOk.sorting {l : List KeyValue} (hl : KeysOk cr l) : Sorting (cmpKey cr key) l := by
  refine hl.sorted.imp fun hab => ⟨fun ha => ?_, fun hb => ?_⟩
  · rw [cmpKey_pos] at ha ⊢
    exact ha.trans hab
  · rw [cmpKey_neg] at hb ⊢
    exact hab.trans hb

theorem KeysOk.sublist {l l' : List KeyValue} (hl : KeysOk cr l) (hs : l'.Sublist l) : KeysOk cr l' where
  collatable kv hkv := hl.collatable kv (hs.subset hkv)
  sorted := hl.sorted.sublist hs

/-- A key goes between the smaller and the larger ones. -/
theorem KeysOk.insert {l r : List KeyValue} {kv : KeyValue} (hlr : KeysOk cr (l ++ r))
    (hkv : Collatable cr kv.1) (hl : ∀ x ∈ l, collateRank cr x.1 < collateRank cr kv.1)
    (hr : ∀ x ∈ r, collateRank cr kv.1 < collateRank cr x.1) : KeysOk cr (l ++ kv :: r) := by
  have hsorted := List.pairwise_append.mp hlr.sorted
  refine ⟨fun x hx => ?_, List.pairwise_append.mpr ⟨hsorted.1, List.pairwise_cons.mpr ⟨hr, hsorted.2.1⟩,
    fun a ha b hb => ?_⟩⟩
  · rcases List.mem_append.mp hx with hx | hx
    · exact hlr.collatable x (List.mem_append_left r hx)
    · rcases List.mem_cons.mp hx with rfl | hx
      · exact hkv
      · exact hlr.collatable x (List.mem_append_right l hx)
  · rcases List.mem_cons.mp hb with rfl | hb
    · exact hl a ha
    · exact hsorted.2.2 a ha b hb

/-- The search for a key in a well-formed tree. -/
theorem WellFormed.search (hl : LawfulEnv env m fails) (hcr : env.cr.Ranked) {n : TNode (H + 1)}
    (hw : WellFormed env.cr m t n) (hkey : Collatable env.cr key) :
    Ends (searchKeyInternal env key value) t (fun _ t' => FoundAt m (cmpKey env.cr key) n [] t')
      (fun e t' => e = .keyNotFound ∧ MissedAt m (cmpKey env.cr key) n [] t.maxDepth t') :=
  searchKeyInternal_spec hl hw.height hw.holds hkey.1 (hw.keys.compares hcr hkey) hw.keys.sorting

/-! ## Well-formed blocks at a cursor -/

/-- A position in a well-formed tree and the tree there are well-formed. -/
theorem TreeOk.of_fill {p : TPath (H + 1) h} {c : TNode h} (hn : TreeOk (p.fill c)) (hne : h ≠ H + 1) :
    PathOk p ∧ NodeOk c := by
  induction p with
  | top => exact absurd rfl hne
  | @down h i before after up ih =>
    cases up with
    | top =>
      have hfill : (Path.down i before after .top).fill c = Node.plug i before c after := rfl
      rw [hfill] at hn
      have hblock := hn.root
      unfold Node.plug at hblock hn
      rw [Node.root_block, entries_chain] at hblock
      have hall := (forall_chain NodeOk before c after).mp ⟨hn.first, hn.rest⟩
      exact ⟨⟨hblock, hall.1, hall.2.2, trivial⟩, hall.2.1⟩
    | down j b a up =>
      have hlen := up.spine_length
      obtain ⟨hup, hplug⟩ := ih hn (by omega)
      obtain ⟨⟨hblock, -⟩, hbefore, hc, hafter⟩ := nodeOk_plug.mp hplug
      exact ⟨⟨hblock, hbefore, hafter, hup⟩, hc⟩

/-- A cursor on an entry of a well-formed tree, at rest. -/
theorem OnEntry.holdsTree {h k : ℕ} {l : List KeyValue} (ho : OnEntry m t X (H + 1) h k l) :
    ∃ n : TNode (H + 1), HoldsTree m t n ∧ TreeOk n ∧ n.elems = l := by
  obtain ⟨h', i, B, b, kv, b', A, q, hr, hp, hb, hl, -⟩ := ho
  have hlen := q.spine_length
  have hne : h' ≠ H + 1 := by omega
  refine ⟨_, hr.holdsTree hne, treeOk_fill hp hb hne fun _ _ => .inr (by simp), ?_⟩
  rw [Path.elems_fill, hl]

/-! ## Inserting a key -/

theorem newIe_eq_mkIe (hkv : KeyValueOk (key, value)) : newIe key value = .ok (mkIe false 0 0 (key, value)) := by
  have hle := (ieLen_le hkv : ieLen false (key, value) ≤ 1297)
  have hlen : entrySize + key.length + value.length = ieLen false (key, value) := rfl
  unfold newIe
  dsimp only
  rw [hlen, uint16, Nat.mod_eq_of_lt (by omega), if_neg (Nat.lt_irrefl _)]
  rfl

/-- `index_insert_key_nolock`, for a comparison that never decreases along the tree. -/
theorem indexInsertKeyNolock_sorted (hl : LawfulEnv env m fails) {n : TNode (H + 1)} (hn : HoldsTree m t n)
    (hok : TreeOk n) (hH : H + 1 ≤ treeMaxDepth) (hkv : KeyValueOk (key, value)) {cmp : KeyValue → ℤ}
    (hcmp : Compares env.cr key value cmp n.elems) (hsort : Sorting cmp n.elems) :
    Ends (indexInsertKeyNolock env key value) t
      (fun _ t' => ∃ l r, n.elems = l ++ r ∧ (∀ kv ∈ l, cmp kv < 0) ∧ (∀ kv ∈ r, 0 < cmp kv) ∧
        ∃ (H' : ℕ) (n' : TNode (H' + 1)), HoldsTree m t' n' ∧ TreeOk n' ∧ H' + 1 ≤ treeMaxDepth ∧
          n'.elems = l ++ (key, value) :: r)
      (fun e t' => fails ∨ (e = .reparent ∧ treeMaxDepth - 1 ≤ knownDepth t H) ∨
        e = .keyExist ∧ (∃ kv ∈ n.elems, cmp kv = 0) ∧ HoldsTree m t' n) := by
  have hkey : key ≠ [] := List.length_pos_iff.mp hkv.key_pos
  unfold indexInsertKeyNolock
  rw [if_neg hkey, ends_bind, ends_codeOf]
  refine (searchKeyInternal_spec hl hH hn hkey hcmp hsort).mono (fun _ t₁ hfound => ?_) fun e t₁ hmissed => ?_
  · obtain ⟨h, i, B, b, kv, d, A, q, hr, hfill, hzero⟩ := hfound
    have hlen := q.spine_length
    rw [ends_throw]
    refine .inr (.inr ⟨rfl, ⟨kv, ?_, hzero⟩, ?_⟩)
    · rw [← hfill, Path.elems_fill]
      simp [Path.right]
    · rw [← hfill]
      exact hr.holdsTree (by omega)
  · obtain ⟨rfl, i, B, A, q, hr, hfill, hleft, hright, hmax⟩ := hmissed
    have hlen := q.spine_length
    rw [if_neg (by decide)]
    dsimp only
    rw [if_neg (by simp), newIe_eq_mkIe hkv, ends_bind, ends_fromExcept_ok]
    have hknown : t₁.maxDepth = knownDepth t H := by
      rw [hmax]
      simp only [knownDepth, Nat.add_eq_right, Nat.add_sub_cancel]
    have hdepth : H + 1 ≤ t₁.maxDepth + 1 := by
      rw [hknown]
      unfold knownDepth
      split_ifs <;> omega
    rw [← hfill] at hok
    obtain ⟨hpath, -⟩ := hok.of_fill (by omega)
    refine (treeInsertIe_spec hl hH hdepth (d := Node.nil) hr trivial hpath trivial trivial hkv
      rfl ?_).mono (fun _ t' hins => ?_) fun e _ h => ?_
    · unfold insertFuel treeMaxDepth at *
      omega
    · obtain ⟨H', k, hle, hle', hon, -, -⟩ := hins
      obtain ⟨H', rfl⟩ : ∃ H'', H' = H'' + 1 := ⟨H' - 1, by omega⟩
      obtain ⟨n', hholds, hok', helems⟩ := hon.holdsTree
      refine ⟨(Path.down i B A q).left, (Path.down i B A q).right, ?_, hleft, hright, H', n', hholds, hok',
        by omega, ?_⟩
      · rw [← hfill, Path.elems_fill]
        simp
      · rw [helems]
        simp [Path.left, Path.right]
    · rw [← hknown]
      tauto

/-- `index_insert_key_nolock` under a ranked rule. -/
theorem indexInsertKeyNolock_spec (hl : LawfulEnv env m fails) (hcr : env.cr.Ranked) {n : TNode (H + 1)}
    (hw : WellFormed env.cr m t n) (hkv : KeyValueOk (key, value)) (hkey : Collatable env.cr key) :
    Ends (indexInsertKeyNolock env key value) t
      (fun _ t' => ∃ l r, n.elems = l ++ r ∧
        (∀ kv ∈ l, collateRank env.cr kv.1 < collateRank env.cr key) ∧
        (∀ kv ∈ r, collateRank env.cr key < collateRank env.cr kv.1) ∧
        ∃ (H' : ℕ) (n' : TNode (H' + 1)), WellFormed env.cr m t' n' ∧ n'.elems = l ++ (key, value) :: r)
      (fun e t' => fails ∨ (e = .reparent ∧ treeMaxDepth - 1 ≤ knownDepth t H) ∨
        e = .keyExist ∧ (∃ kv ∈ n.elems, collateRank env.cr kv.1 = collateRank env.cr key) ∧
          WellFormed env.cr m t' n) := by
  refine (indexInsertKeyNolock_sorted hl hw.holds hw.blocks hw.height hkv (hw.keys.compares hcr hkey)
    hw.keys.sorting).mono (fun _ t' hpost => ?_) fun e t' h => ?_
  · obtain ⟨l, r, hn, hleft, hright, H', n', hholds, hok, hH', hn'⟩ := hpost
    simp only [cmpKey_neg, cmpKey_pos] at hleft hright
    have hkeys := hw.keys
    rw [hn] at hkeys
    refine ⟨l, r, hn, hleft, hright, H', n', ⟨hholds, hok, hH', ?_⟩, hn'⟩
    rw [hn']
    exact hkeys.insert hkey hleft hright
  · simp only [cmpKey_eq_zero] at h
    exact h.imp_right fun h => h.imp_right fun ⟨he, hkv', hholds⟩ =>
      ⟨he, hkv', hholds, hw.blocks, hw.height, hw.keys⟩

/-! ## A container without failures -/

/-- A container that hands out the block numbers in turn. -/
def countingEnv (cr : CollateRule) : TreeEnv ℕ where
  cr := cr
  allocBlock := modifyGet fun n => (n, n + 1)
  freeBlock _ := pure ()
  allocCache := pure ()
  readBlock _ := throw .disk
  refused _ _ := none

def countingModel : ContainerModel ℕ where
  Inv n := 0 < n
  used n := {v | v < n}
  stored _ _ := none

theorem countingEnv_lawful (cr : CollateRule) : LawfulEnv (countingEnv cr) countingModel False where
  alloc n hn := by
    refine ⟨Nat.pos_iff_ne_zero.mp hn, Nat.lt_irrefl n, Nat.lt_succ_self n, Nat.succ_pos n, fun v hv => ?_⟩
    exact ⟨Nat.lt_succ_of_lt hv, rfl⟩
  free n v hn _ := ⟨hn, fun w hw => ⟨hw.1, rfl⟩⟩
  allocCache n hn := ⟨hn, fun w hw => ⟨hw, rfl⟩⟩
  read n v ib _ _ h := by cases h

/-- A root block with the given entries in block 1. -/
def rootTree (l : List KeyValue) : TNode 1 := Node.block 1 Node.nil (l.map fun kv => (kv, Node.nil))

/-- The object with that root block, just opened. -/
def rootState (l : List KeyValue) : ObjectTree ℕ where
  rootVbn := 1
  rootState := .clean
  rootIb := blockImage 0 attrRecordContentSize (rootTree l).root
  caches _ := none
  maxDepth := 0
  stack := []
  ct := 2

theorem rootState_holds (l : List KeyValue) : HoldsTree countingModel (rootState l) (rootTree l) where
  inv := (by decide : 0 < 2)
  root := rfl
  rootVbn := rfl
  first := trivial
  rest _ _ := trivial
  owned := by
    have hlabels : (rootTree l).labels = [1] := by
      unfold rootTree
      rw [Node.labels_block]
      simp [Node.labelsAfter]
    rw [hlabels]
    refine ⟨by simp, fun v hv => ?_⟩
    obtain rfl := List.mem_singleton.mp hv
    exact ⟨(by decide : 1 < 2), one_ne_zero⟩

theorem rootTree_ok {l : List KeyValue} (hl : BlockOk attrRecordContentSize 0 l) : TreeOk (rootTree l) := by
  refine ⟨?_, trivial, fun _ _ => trivial⟩
  have hmap : (rootTree l).root.rest.map Prod.fst = l := by
    unfold rootTree
    rw [Node.root_block, List.map_map]
    exact List.map_id l
  rw [hmap]
  exact hl

@[simp] theorem rootTree_elems (l : List KeyValue) : (rootTree l).elems = l := by
  unfold rootTree
  rw [Node.elems_block, Node.elems_zero, List.nil_append, Node.elemsAfter, List.flatMap_map]
  exact List.flatMap_pure_eq_map id l |>.trans (List.map_id l)

/-! ## The contract of `index_insert_key_nolock` -/

/-- If the container does not fail and the tree is not as deep as it can be, a new key is added at its
place in the order, and a key that is there is refused and nothing changes. -/
theorem insert_refines (hl : LawfulEnv env m False) (hcr : env.cr.Ranked) {n : TNode (H + 1)}
    (hw : WellFormed env.cr m t n) (hkv : KeyValueOk (key, value)) (hkey : Collatable env.cr key)
    (hdepth : knownDepth t H < treeMaxDepth - 1) :
    Ends (indexInsertKeyNolock env key value) t
      (fun _ t' => (∀ kv ∈ n.elems, collateRank env.cr kv.1 ≠ collateRank env.cr key) ∧
        ∃ l r, n.elems = l ++ r ∧
          ∃ (H' : ℕ) (n' : TNode (H' + 1)), WellFormed env.cr m t' n' ∧ n'.elems = l ++ (key, value) :: r)
      (fun e t' => e = .keyExist ∧ (∃ kv ∈ n.elems, collateRank env.cr kv.1 = collateRank env.cr key) ∧
        WellFormed env.cr m t' n) := by
  refine (indexInsertKeyNolock_spec hl hcr hw hkv hkey).mono (fun _ t' hpost => ?_) fun e t' h => ?_
  · obtain ⟨l, r, hn, hleft, hright, hins⟩ := hpost
    refine ⟨fun kv hmem => ?_, l, r, hn, hins⟩
    rw [hn] at hmem
    rcases List.mem_append.mp hmem with hmem | hmem
    · exact (hleft kv hmem).ne
    · exact (hright kv hmem).ne'
  · rcases h with h | ⟨-, hmax⟩ | h
    · exact h.elim
    · exact absurd hmax (not_le.mpr hdepth)
    · exact h

/-- One entry, and a second key. -/
theorem insert_refines_second :
    Ends (indexInsertKeyNolock (countingEnv .binary) [2] [20]) (rootState [([1], [10])])
      (fun _ t' => (∀ kv ∈ (rootTree [([1], [10])]).elems,
          collateRank .binary kv.1 ≠ collateRank .binary [2]) ∧
        ∃ l r, (rootTree [([1], [10])]).elems = l ++ r ∧ ∃ (H' : ℕ) (n' : TNode (H' + 1)),
          WellFormed .binary countingModel t' n' ∧ n'.elems = l ++ ([2], [20]) :: r)
      (fun e t' => e = .keyExist ∧ (∃ kv ∈ (rootTree [([1], [10])]).elems,
          collateRank .binary kv.1 = collateRank .binary [2]) ∧
        WellFormed .binary countingModel t' (rootTree [([1], [10])])) := by
  refine insert_refines (countingEnv_lawful .binary) (.inl rfl) ⟨rootState_holds _, rootTree_ok ⟨?_, ?_⟩,
    by decide, ⟨?_, ?_⟩⟩ ⟨by decide, by decide, by decide⟩ ⟨by decide, by decide⟩ (by decide)
  · decide
  · intro kv hkv
    obtain rfl := List.mem_singleton.mp hkv
    exact ⟨by decide, by decide, by decide⟩
  · intro kv hkv
    rw [rootTree_elems] at hkv
    obtain rfl := List.mem_singleton.mp hkv
    exact ⟨by decide, by decide⟩
  · rw [rootTree_elems]
    exact List.pairwise_singleton _ _

/-- Under `CR_U64` a key of nine bytes goes into an empty tree, and the next insertion fails an
`ASSERT`; and a container that fails to free a block makes an insertion fail that has no other reason to. -/
theorem insert_long_u64_key :
    (HoldsTree countingModel (rootState [([9, 8, 7, 6, 5, 4, 3, 2, 1], [])])
        (rootTree [([9, 8, 7, 6, 5, 4, 3, 2, 1], [])]) ∧
      TreeOk (rootTree [([9, 8, 7, 6, 5, 4, 3, 2, 1], [])]) ∧ KeyValueOk ([1], []) ∧
      Ends (indexInsertKeyNolock (countingEnv .u64) [9, 8, 7, 6, 5, 4, 3, 2, 1] []) (rootState [])
        (fun _ _ => True) (fun _ _ => False) ∧
      Ends (indexInsertKeyNolock (countingEnv .u64) [1] []) (rootState [([9, 8, 7, 6, 5, 4, 3, 2, 1], [])])
        (fun _ _ => False) (fun e _ => e = .assertion)) ∧
    Ends (indexInsertKeyNolock { countingEnv .binary with freeBlock := fun _ => throw .objIdInvalid } [1] [])
      (rootState []) (fun _ _ => False) (fun e _ => e = .objIdInvalid) := by
  refine ⟨⟨rootState_holds _, rootTree_ok ⟨by decide, fun kv hkv => ?_⟩, ⟨by decide, by decide, by decide⟩,
    trivial, rfl⟩, rfl⟩
  obtain rfl := List.mem_singleton.mp hkv
  exact ⟨by decide, by decide, by decide⟩

end IndexFs.Tree
