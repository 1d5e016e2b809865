import IndexFs.Tree.InsertKey

/-!
# Objects with at most one entry

A new object has its whole tree in its inode and the root is dirty from the start,
so the first insertions and removals stay there and never call the container.

* `SmallRoot`: the tree of such an object.
* `search_smallRoot`, `insert_smallRoot`, `remove_smallRoot`, `prev_smallRoot`:
  what the operations do to it.
-/

namespace IndexFs.Tree

open IndexFs.Collate

variable {σ : Type} {env : TreeEnv σ} {t : ObjectTree σ} {key value : Bytes} {kv : KeyValue}

/-- `create_object_at_inode` and `init_attr` leave an empty root block in the inode. -/
def newTree (inodeNo : ℕ) (ct : σ) : ObjectTree σ where
  rootVbn := inodeNo
  rootState := .dirty
  rootIb := initIb false attrRecordContentSize
  caches _ := none
  maxDepth := 0
  stack := []
  ct := ct

/-- The root block with the given entries. -/
def rootImage (l : List KeyValue) : IndexBlock :=
  image attrRecordContentSize false [] 0 (l.map fun kv => (kv, 0))

/-- The tree has the entries `l`, all in its root, which is dirty. -/
structure SmallRoot (l : List KeyValue) (t : ObjectTree σ) : Prop where
  ib : t.rootIb = rootImage l
  dirty : t.rootState = .dirty

/-- The cursor is on the first entry of the root. -/
def AtFirst (t : ObjectTree σ) : Prop := t.stack = [⟨.root, indexBlockSize⟩]

/-- The entry there. -/
def firstIe (l : List KeyValue) : IndexEntry := headIe false entrySize 0 (l.map fun kv => (kv, 0))

theorem newTree_smallRoot (inodeNo : ℕ) (ct : σ) : SmallRoot [] (newTree inodeNo ct) := ⟨rfl, rfl⟩

section Steps

variable {l : List KeyValue}

/-- The state is its fields. -/
theorem SmallRoot.cases (h : SmallRoot l t) : ∃ v c d s x, t = ⟨v, .dirty, rootImage l, c, d, s, x⟩ := by
  obtain ⟨v, st, ib, c, d, s, x⟩ := t
  obtain ⟨rfl, rfl⟩ := h
  exact ⟨v, c, d, s, x, rfl⟩

theorem SmallRoot.currentIe (h : SmallRoot l t) (hat : AtFirst t) : currentIe t = .ok (firstIe l) t := by
  obtain ⟨v, c, d, s, x, rfl⟩ := h.cases
  cases hat
  rfl

theorem SmallRoot.setIbDirty (h : SmallRoot l t) (hat : AtFirst t) : setIbDirty env t = .ok () t := by
  obtain ⟨v, c, d, s, x, rfl⟩ := h.cases
  cases hat
  rfl

theorem SmallRoot.resetCacheStack (h : SmallRoot l t) :
    resetCacheStack {} t = .ok () { t with stack := [⟨.root, indexBlockSize⟩] } := by
  obtain ⟨v, c, d, s, x, rfl⟩ := h.cases
  rfl

end Steps

/-! ## The operations -/

theorem search_empty (h : SmallRoot [] t) (hkey : key ≠ []) :
    Ends (searchKeyInternal env key value) t (fun _ _ => False)
      (fun e t' => e = .keyNotFound ∧ SmallRoot [] t' ∧ AtFirst t') := by
  obtain ⟨v, c, d, s, x, rfl⟩ := h.cases
  unfold searchKeyInternal assertThat
  rw [if_pos hkey]
  exact ⟨rfl, ⟨rfl, rfl⟩, rfl⟩

/-- The only entry meets the key. -/
theorem search_only (h : SmallRoot [kv] t) (hkey : key ≠ [])
    (hmeets : collateKey env.cr (firstIe [kv]) key value = .ok 0) :
    Ends (searchKeyInternal env key value) t (fun _ t' => SmallRoot [kv] t' ∧ AtFirst t') fun _ _ => False := by
  obtain ⟨h', hat⟩ : SmallRoot [kv] { t with stack := [⟨.root, indexBlockSize⟩] } ∧
      AtFirst { t with stack := [⟨.root, indexBlockSize⟩] } := ⟨⟨h.ib, h.dirty⟩, rfl⟩
  have hib : ibIn { t with stack := [⟨.root, indexBlockSize⟩] } .root = some t.rootIb := rfl
  have hend : ¬ (firstIe [kv]).isEnd = true := Bool.false_ne_true
  have hblock : ∀ n, Ends (searchBlock env key value (n + 1)) { t with stack := [⟨.root, indexBlockSize⟩] }
      (fun r t' => r = true ∧ SmallRoot [kv] t' ∧ AtFirst t') fun _ _ => False := fun n => by
    unfold searchBlock
    rw [ends_bind, ends_of_ok (h'.currentIe hat), if_neg hend, hmeets, ends_bind, ends_fromExcept_ok]
    exact ⟨rfl, h', hat⟩
  unfold searchKeyInternal assertThat
  rw [if_pos hkey, ends_bind, ends_pure, ends_bind, ends_of_ok h.resetCacheStack]
  unfold treeMaxDepth searchLevels
  rw [ends_bind, ends_top hat, ends_bind, ends_getIb hib, ends_bind]
  refine (hblock _).mono (fun r t' hpost => ?_) fun _ _ h => h
  obtain ⟨rfl, hsmall⟩ := hpost
  exact hsmall

/-- `index_search_key_nolock` stays on the END entry of an empty tree. -/
theorem indexSearch_empty (h : SmallRoot [] t) (hkey : key ≠ []) :
    Ends (indexSearchKeyNolock env key value) t (fun _ _ => False)
      (fun e t' => e = .keyNotFound ∧ SmallRoot [] t' ∧ AtFirst t') := by
  unfold indexSearchKeyNolock
  rw [if_neg hkey]
  refine Ends.bind (Ends.codeOf ((search_empty h hkey).mono (fun _ _ h => h.elim) fun e t' hpost => ?_))
  obtain ⟨rfl, h', hat⟩ := hpost
  obtain ⟨v, c, d, s, x, rfl⟩ := h'.cases
  cases hat
  exact ⟨rfl, rfl, h', rfl⟩

theorem indexSearch_only (h : SmallRoot [kv] t) (hkey : key ≠ [])
    (hmeets : collateKey env.cr (firstIe [kv]) key value = .ok 0) :
    Ends (indexSearchKeyNolock env key value) t (fun _ t' => SmallRoot [kv] t' ∧ AtFirst t') fun _ _ => False := by
  unfold indexSearchKeyNolock
  rw [if_neg hkey]
  exact Ends.bind (Ends.codeOf ((search_only h hkey hmeets).mono (fun _ _ h => h) fun _ _ h => h.elim))

theorem insert_empty (h : SmallRoot [] t) (hkv : KeyValueOk (key, value)) :
    Ends (indexInsertKeyNolock env key value) t (fun _ t' => SmallRoot [(key, value)] t') fun _ _ => False := by
  have hkey : key ≠ [] := List.ne_nil_of_length_pos hkv.key_pos
  have hlen := (ieLen_le hkv : ieLen false (key, value) ≤ 1297)
  have hsize : (rootImage []).realSize = 42 := rfl
  unfold indexInsertKeyNolock
  rw [if_neg hkey]
  refine Ends.bind (Ends.codeOf ((search_empty h hkey).mono (fun _ _ h => h.elim) fun e t' hpost => ?_))
  obtain ⟨rfl, h', hat⟩ := hpost
  have hib : ibIn t' .root = some (rootImage []) := congrArg some h'.ib
  have hins : insertIe (rootImage []) (mkIe false 0 0 (key, value)) indexBlockSize = .ok (rootImage [(key, value)]) :=
    insertIe_image rfl (by change 42 + ieLen false (key, value) ≤ 3722; omega)
  have hroom : uint32 ((rootImage []).realSize + (mkIe false 0 0 (key, value)).len) ≤ (rootImage []).allocSize := by
    rw [hsize]
    change (42 + ieLen false (key, value)) % 2 ^ 32 ≤ 3722
    omega
  refine ⟨rfl, ?_⟩
  dsimp only
  rw [if_neg (by simp), newIe_eq_mkIe hkv, ends_bind, ends_fromExcept_ok]
  unfold insertFuel treeMaxDepth treeInsertIe
  rw [ends_bind, ends_top hat, ends_bind, ends_getIb hib, if_pos hroom, ends_bind]
  unfold insertInto
  rw [ends_bind, ends_getIb hib, hins, ends_bind, ends_fromExcept_ok]
  have hsmall : SmallRoot [(key, value)] { t' with rootIb := rootImage [(key, value)] } := ⟨rfl, h'.dirty⟩
  exact (ends_of_ok (hsmall.setIbDirty hat)).mpr hsmall

theorem remove_only (h : SmallRoot [kv] t) (hat : AtFirst t) :
    Ends (treeRemoveIe env) t (fun _ t' => SmallRoot [] t') fun _ _ => False := by
  have hib : ibIn t .root = some (rootImage [kv]) := congrArg some h.ib
  have hremove : removeIe (rootImage [kv]) indexBlockSize = .ok (rootImage []) := removeIe_image
  have hend : ¬ ((firstIe [kv]).isEnd = true ∨ (firstIe [kv]).isBegin = true) := fun h =>
    h.elim Bool.false_ne_true Bool.false_ne_true
  have hnode : ¬ (firstIe [kv]).isNode = true := Bool.false_ne_true
  unfold treeRemoveIe
  rw [ends_bind, ends_of_ok (h.currentIe hat), if_neg hend, if_neg hnode]
  unfold removeLeaf
  rw [ends_bind, ends_top hat, ends_bind, ends_getIb hib, hremove, ends_bind, ends_fromExcept_ok]
  have hsmall : SmallRoot [] { t with rootIb := rootImage [] } := ⟨rfl, h.dirty⟩
  obtain ⟨v, c, d, s, x, rfl⟩ := h.cases
  cases hat
  exact hsmall

/-- There is nothing before the END entry of an empty tree. -/
theorem walk_prev_empty (h : SmallRoot [] t) (hat : AtFirst t) :
    Ends (walkTree env { getPrev := true }) t (fun _ _ => False) (fun e t' => e = .root ∧ SmallRoot [] t') := by
  obtain ⟨v, c, d, s, x, rfl⟩ := h.cases
  cases hat
  exact ⟨rfl, rfl, rfl⟩

end IndexFs.Tree
