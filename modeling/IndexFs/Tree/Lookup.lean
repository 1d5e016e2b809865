import IndexFs.Space.Allocator
import IndexFs.Tree.InsertKey
import IndexFs.Tree.Walk

/-!
# `index_search_key_nolock`

After a search that missed, `get_to_near_key` climbs from the leaf to the first
larger entry. In a `CR_EXTENT` tree a stored extent compares equal to every query
interval it shares a block with, and the comparison is monotone along the tree
because the extents are separated.

Results:

* `indexSearchKeyNolock_spec`: for a comparison that is ordered along the entries.
* `compares_extent`, `extentOrd_eq_zero_iff`: what equal means for extents.
* `search_meets`: both, and the rules that compare by rank.
* `search_beside_meaning`: an empty interval inside an extent, and a key of nine
  bytes under `CR_U64`.
-/

namespace IndexFs.Tree

open IndexFs.Multiway IndexFs.Collate IndexFs.Space

variable {σ : Type} {m : ContainerModel σ} {t t' : ObjectTree σ} {H h : ℕ} {X : List ℕ}
  {env : TreeEnv σ} {fails : Prop} {n : TNode (H + 1)} {key value : Bytes} {cmp : KeyValue → ℤ}

/-! ## The near key -/

/-- `get_to_near_key` climbs off END entries to the first entry behind the cursor. -/
theorem getToNearKey_spec {i : ℕ} {before : List (TNode h × KeyValue)} {c : TNode h}
    {after : List (KeyValue × TNode h)} {up : TPath (H + 1) (h + 1)}
    (hr : Rep m t (.down i before after up) c X) (hfill : (Path.down i before after up).fill c = n)
    {fuel : ℕ} (hfuel : up.spine.length < fuel) :
    Ends (getToNearKey fuel) t
      (fun _ t' => (∃ kv r, (Path.down i before after up).right = kv :: r ∧
          Rests m t' n X ((Path.down i before after up).left ++ c.elems) kv r) ∨
        ((Path.down i before after up).right = [] ∧ AtRootEnd m t' n X))
      (fun _ _ => False) := by
  induction fuel generalizing t h i before c after up with
  | zero => omega
  | succ fuel ih =>
    unfold getToNearKey
    rw [ends_bind, ends_currentIe hr, curIe_isEnd]
    cases after with
    | cons x A =>
      obtain ⟨kv, b'⟩ := x
      rw [if_neg (by simp), ends_pure]
      exact .inl ⟨kv, b'.elems ++ Node.elemsAfter A ++ up.right, by simp [Path.right], h, i, before, c,
        b', A, up, hr, hfill, rfl, by simp [Path.right]⟩
    | nil =>
      rw [if_pos (by simp)]
      cases up with
      | top =>
        have hstack := hr.stack
        refine Ends.bind (Ends.codeOf (popCacheStack_root (by rw [hstack]; rfl) ⟨rfl, ?_⟩))
        exact .inr ⟨by simp [Path.right], i, before, c, hr, hfill⟩
      | down j b a up =>
        refine Ends.bind (Ends.codeOf (popCacheStack_spec rfl hr fun t₁ hr₁ _ _ => ?_))
        have hleft : (Path.down j b a up).left ++ (Node.plug i before c []).elems =
            (Path.down i before [] (.down j b a up)).left ++ c.elems := by
          simp [Path.left, Node.elems_plug]
        have hright : (Path.down i before [] (.down j b a up)).right = (Path.down j b a up).right := by
          simp [Path.right]
        rw [← hleft, hright]
        simp only [Path.spine, List.length_cons] at hfuel
        exact ih hr₁ hfill (by omega)

/-- The cursor is on an entry with the property. -/
def FoundEntry (m : ContainerModel σ) (n : TNode (H + 1)) (equal : KeyValue → Prop) (t : ObjectTree σ) :
    Prop :=
  ∃ l kv r, Rests m t n [] l kv r ∧ equal kv

/-- The cursor is on the first entry that is larger, or on the END entry of the root if none is. -/
def NearEntry (m : ContainerModel σ) (n : TNode (H + 1)) (smaller larger : KeyValue → Prop)
    (t : ObjectTree σ) : Prop :=
  (∃ l kv r, Rests m t n [] l kv r ∧ (∀ x ∈ l, smaller x) ∧ ∀ x ∈ kv :: r, larger x) ∨
    AtRootEnd m t n [] ∧ ∀ x ∈ n.elems, smaller x

/-- A search rests on an equal entry; if there is none it says so and rests on the first larger one. -/
theorem indexSearchKeyNolock_spec (hl : LawfulEnv env m fails) (hH : H + 1 ≤ treeMaxDepth)
    (ht : HoldsTree m t n) (hkey : key ≠ []) (hcmp : Compares env.cr key value cmp n.elems)
    (hsort : Sorting cmp n.elems) :
    Ends (indexSearchKeyNolock env key value) t
      (fun _ t' => FoundEntry m n (fun kv => cmp kv = 0) t')
      (fun e t' => e = .keyNotFound ∧ (∀ kv ∈ n.elems, cmp kv ≠ 0) ∧
        NearEntry m n (fun kv => cmp kv < 0) (fun kv => 0 < cmp kv) t') := by
  unfold indexSearchKeyNolock
  rw [if_neg hkey]
  refine Ends.bind (Ends.codeOf ((searchKeyInternal_spec hl hH ht hkey hcmp hsort).mono ?_ ?_))
  · rintro _ t₁ ⟨h, i, B, b, kv, d, A, q, hr, hfill, hzero⟩
    exact ⟨_, kv, _, ⟨h, i, B, b, d, A, q, hr, hfill, rfl, by simp [Path.right]; rfl⟩, hzero⟩
  · rintro e t₁ ⟨rfl, i, B, A, q, hr, hfill, hleft, hright, -⟩
    have hlen := q.spine_length
    have helems : n.elems = (Path.down i B A q).left ++ (Path.down i B A q).right := by
      rw [← hfill, Path.elems_fill]
      simp
    have hne : ∀ kv ∈ n.elems, cmp kv ≠ 0 := by
      intro kv hkv
      rw [helems] at hkv
      rcases List.mem_append.mp hkv with hkv | hkv
      · exact (hleft kv hkv).ne
      · exact (hright kv hkv).ne'
    refine ⟨rfl, ?_⟩
    dsimp only
    rw [if_pos rfl]
    refine (getToNearKey_spec hr hfill (by omega)).seq' (fun _ t' hpost => ?_) fun _ _ h => h.elim
    rw [ends_throw]
    refine ⟨rfl, hne, ?_⟩
    rcases hpost with ⟨kv, r, hkv, hrests⟩ | ⟨hnil, hend⟩
    · rw [Node.elems_zero, List.append_nil] at hrests
      exact .inl ⟨_, kv, r, hrests, hleft, hkv ▸ hright⟩
    · refine .inr ⟨hend, ?_⟩
      rw [helems, hnil, List.append_nil]
      exact hleft

/-! ## Extents -/

/-- The number a byte string stands for. -/
def decodeU64 (b : Bytes) : ℕ := Nat.ofDigits 256 (b.map UInt8.toNat)

/-- The extent an entry stands for. -/
def decodeExtent (kv : KeyValue) : ℕ × ℕ := (decodeU64 kv.1, decodeU64 kv.2)

/-- A byte string that `os_bstr_to_u64` takes. -/
def IsU64 (b : Bytes) : Prop := 1 ≤ b.length ∧ b.length ≤ 8

/-- The entries are disjoint nonempty extents in order, none of which reaches `2^64`. -/
structure ExtentsOk (l : List KeyValue) : Prop where
  decodable : ∀ kv ∈ l, IsU64 kv.1 ∧ IsU64 kv.2
  extents : ExtentsIn 0 (2 ^ 64 - 1) (l.map decodeExtent)

theorem osBstrToU64_decode {b : Bytes} (h : IsU64 b) : osBstrToU64 b = .ok (decodeU64 b) :=
  osBstrToU64_ok h.1 h.2

theorem IsU64.ne_nil {b : Bytes} (h : IsU64 b) : b ≠ [] := List.length_pos_iff.mp h.1

/-- `CR_EXTENT` compares the decoded extents. -/
theorem compares_extent {l : List KeyValue} (hl : ExtentsOk l) (hkey : IsU64 key) (hvalue : IsU64 value) :
    Compares .extent key value (fun kv => extentOrd (decodeU64 key) (decodeU64 value) (decodeExtent kv))
      l := by
  intro kv hkv ie hie1 hie2
  obtain ⟨h1, h2⟩ := hl.decodable kv hkv
  unfold collateKey
  rw [if_neg hkey.ne_nil]
  simp only [osCollateExtent, hie1, hie2, if_neg (not_or.mpr ⟨hvalue.ne_nil, h2.ne_nil⟩),
    osBstrToU64_decode h1, osBstrToU64_decode h2, osBstrToU64_decode hkey, osBstrToU64_decode hvalue,
    bind, Except.bind]
  unfold extentOrd uint64 decodeExtent
  split_ifs <;> rfl

/-- The comparison is ordered along separated extents. -/
theorem sorting_extent {l : List KeyValue} (hl : ExtentsOk l) (s c : ℕ) :
    Sorting (fun kv => extentOrd s c (decodeExtent kv)) l :=
  List.pairwise_map.mp (hl.extents.extentOrd_monotone (by norm_num) s c)

/-- An extent compares equal to a nonempty query interval exactly when they share a block. -/
theorem extentOrd_eq_zero_iff {s c : ℕ} {e : ℕ × ℕ} (hc : 1 ≤ c) (hsc : s + c < 2 ^ 64) (he : 1 ≤ e.2)
    (hend : e.1 + e.2 < 2 ^ 64) :
    extentOrd s c e = 0 ↔ (Set.Ico s (s + c) ∩ Set.Ico e.1 (e.1 + e.2)).Nonempty := by
  have hord : extentOrd s c e = 0 ↔ e.1 < s + c ∧ s < e.1 + e.2 := by
    unfold extentOrd uint64
    rw [Nat.mod_eq_of_lt hsc, Nat.mod_eq_of_lt hend]
    split_ifs with h1 h2
    · simp; omega
    · simp; omega
    · simp; omega
  rw [hord]
  constructor
  · rintro ⟨h1, h2⟩
    exact ⟨max s e.1, by simp; omega, by simp; omega⟩
  · rintro ⟨b, hb1, hb2⟩
    simp only [Set.mem_Ico] at hb1 hb2
    omega

/-! ## Searching -/

/-- The extent of an entry shares a block with the query interval. -/
def Meets (key value : Bytes) (kv : KeyValue) : Prop :=
  (Set.Ico (decodeU64 key) (decodeU64 key + decodeU64 value) ∩
    Set.Ico (decodeExtent kv).1 ((decodeExtent kv).1 + (decodeExtent kv).2)).Nonempty

theorem ExtentsOk.entry {l : List KeyValue} (hl : ExtentsOk l) {kv : KeyValue} (hkv : kv ∈ l) :
    1 ≤ (decodeExtent kv).2 ∧ (decodeExtent kv).1 + (decodeExtent kv).2 < 2 ^ 64 := by
  have hmem : decodeExtent kv ∈ l.map decodeExtent := List.mem_map_of_mem hkv
  have hbound := (hl.extents.bounded _ hmem).2
  exact ⟨hl.extents.nonempty _ hmem, by omega⟩

theorem ExtentsOk.meets_iff {l : List KeyValue} (hl : ExtentsOk l) (hc : 1 ≤ decodeU64 value)
    (hsc : decodeU64 key + decodeU64 value < 2 ^ 64) {kv : KeyValue} (hkv : kv ∈ l) :
    extentOrd (decodeU64 key) (decodeU64 value) (decodeExtent kv) = 0 ↔ Meets key value kv :=
  extentOrd_eq_zero_iff hc hsc (hl.entry hkv).1 (hl.entry hkv).2

/-- For every query whose comparisons are ordered along the entries, a search succeeds exactly when an
entry compares equal, and otherwise rests on the first larger one. Under the rules that order keys by a
rank these are all queries they can decode. Under `CR_EXTENT` they are all nonempty query intervals
below `2^64`, and equal means that the extents share a block. -/
theorem search_meets (hl : LawfulEnv env m fails) (hH : H + 1 ≤ treeMaxDepth) (ht : HoldsTree m t n) :
    (∀ key value cmp, key ≠ [] → Compares env.cr key value cmp n.elems → Sorting cmp n.elems →
      Ends (indexSearchKeyNolock env key value) t
        (fun _ t' => FoundEntry m n (fun kv => cmp kv = 0) t')
        (fun e t' => e = .keyNotFound ∧ (∀ kv ∈ n.elems, cmp kv ≠ 0) ∧
          NearEntry m n (fun kv => cmp kv < 0) (fun kv => 0 < cmp kv) t')) ∧
    (env.cr.Ranked → KeysOk env.cr n.elems → ∀ key value, Collatable env.cr key →
      Ends (indexSearchKeyNolock env key value) t
        (fun _ t' => FoundEntry m n (fun kv => collateRank env.cr kv.1 = collateRank env.cr key) t')
        (fun e t' => e = .keyNotFound ∧
          (∀ kv ∈ n.elems, collateRank env.cr kv.1 ≠ collateRank env.cr key) ∧
          NearEntry m n (fun kv => collateRank env.cr kv.1 < collateRank env.cr key)
            (fun kv => collateRank env.cr key < collateRank env.cr kv.1) t')) ∧
    (env.cr = .extent → ExtentsOk n.elems → ∀ key value, IsU64 key → IsU64 value →
      1 ≤ decodeU64 value → decodeU64 key + decodeU64 value < 2 ^ 64 →
      Ends (indexSearchKeyNolock env key value) t
        (fun _ t' => FoundEntry m n (Meets key value) t')
        (fun e t' => e = .keyNotFound ∧ (∀ kv ∈ n.elems, ¬ Meets key value kv) ∧
          NearEntry m n (fun kv => (decodeExtent kv).1 + (decodeExtent kv).2 ≤ decodeU64 key)
            (fun kv => decodeU64 key + decodeU64 value ≤ (decodeExtent kv).1) t')) := by
  refine ⟨fun key value cmp hkey hcmp hsort => indexSearchKeyNolock_spec hl hH ht hkey hcmp hsort,
    fun hcr hkeys key value hkey => ?_, fun hcr hext key value hkey hvalue hc hsc => ?_⟩
  · have hspec := indexSearchKeyNolock_spec hl hH ht hkey.1
      (hkeys.compares hcr hkey : Compares env.cr key value _ _) hkeys.sorting
    simpa only [cmpKey_eq_zero, cmpKey_neg, cmpKey_pos, ne_eq] using hspec
  · refine (indexSearchKeyNolock_spec hl hH ht hkey.ne_nil
      (hcr ▸ compares_extent hext hkey hvalue) (sorting_extent hext _ _)).mono ?_ ?_
    · rintro _ t' ⟨l, kv, r, hrests, hzero⟩
      exact ⟨l, kv, r, hrests, (hext.meets_iff hc hsc (by simp [hrests.elems])).mp hzero⟩
    · rintro e t' ⟨rfl, hne, hnear⟩
      refine ⟨rfl, fun kv hkv hmeets => hne kv hkv ((hext.meets_iff hc hsc hkv).mpr hmeets), ?_⟩
      have hneg : ∀ kv ∈ n.elems, extentOrd (decodeU64 key) (decodeU64 value) (decodeExtent kv) < 0 →
          (decodeExtent kv).1 + (decodeExtent kv).2 ≤ decodeU64 key := fun kv hkv h => by
        have hend := (hext.entry hkv).2
        unfold extentOrd uint64 at h
        split_ifs at h <;> omega
      have hpos : ∀ kv ∈ n.elems, 0 < extentOrd (decodeU64 key) (decodeU64 value) (decodeExtent kv) →
          decodeU64 key + decodeU64 value ≤ (decodeExtent kv).1 := fun kv hkv h => by
        unfold extentOrd uint64 at h
        split_ifs at h <;> omega
      rcases hnear with ⟨l, kv, r, hrests, hl', hr'⟩ | ⟨hend, hall⟩
      · have helems := hrests.elems
        refine .inl ⟨l, kv, r, hrests, fun x hx => hneg x ?_ (hl' x hx), fun x hx => hpos x ?_ (hr' x hx)⟩
        · rw [helems]
          exact List.mem_append_left _ hx
        · rw [helems]
          exact List.mem_append_right _ hx
      · exact .inr ⟨hend, fun x hx => hneg x hx (hall x hx)⟩

/-- The extents `[4, 10)` and `[20, 23)` in a root block. -/
def twoExtentEntries : List KeyValue := [([4], [6]), ([20], [3])]

theorem twoExtentEntries_ok : ExtentsOk twoExtentEntries where
  decodable := by
    intro kv hkv
    simp only [twoExtentEntries, List.mem_cons, List.not_mem_nil, or_false] at hkv
    rcases hkv with rfl | rfl <;> exact ⟨⟨by decide, by decide⟩, by decide, by decide⟩
  extents := by
    have hmap : twoExtentEntries.map decodeExtent = [(4, 6), (20, 3)] := by decide
    rw [hmap]
    exact ⟨by simp [Separated], by simp, by simp⟩

/-- The query `[8, 21)` spans both. -/
theorem search_meets_two :
    Ends (indexSearchKeyNolock (countingEnv .extent) [8] [13]) (rootState twoExtentEntries)
      (fun _ t' => FoundEntry countingModel (rootTree twoExtentEntries) (Meets [8] [13]) t')
      (fun e t' => e = .keyNotFound ∧
        (∀ kv ∈ (rootTree twoExtentEntries).elems, ¬ Meets [8] [13] kv) ∧
        NearEntry countingModel (rootTree twoExtentEntries)
          (fun kv => (decodeExtent kv).1 + (decodeExtent kv).2 ≤ decodeU64 [8])
          (fun kv => decodeU64 [8] + decodeU64 [13] ≤ (decodeExtent kv).1) t') :=
  (search_meets (countingEnv_lawful .extent) (by decide) (rootState_holds twoExtentEntries)).2.2 rfl
    (by rw [rootTree_elems]; exact twoExtentEntries_ok) [8] [13] ⟨by decide, by decide⟩
    ⟨by decide, by decide⟩ (by decide) (by decide)

/-- The empty interval at block 5 compares equal to `[4, 10)`, with which it shares no block; and a
query of nine bytes under `CR_U64` fails an `ASSERT` instead of returning a code. -/
theorem search_beside_meaning :
    (HoldsTree countingModel (rootState twoExtentEntries) (rootTree twoExtentEntries) ∧
      ExtentsOk twoExtentEntries ∧ (∀ kv, ¬ Meets [5] [0] kv) ∧
      Ends (indexSearchKeyNolock (countingEnv .extent) [5] [0]) (rootState twoExtentEntries)
        (fun _ _ => True) (fun _ _ => False)) ∧
    Ends (indexSearchKeyNolock (countingEnv .u64) [9, 8, 7, 6, 5, 4, 3, 2, 1] [])
      (rootState [([1], [])]) (fun _ _ => False) (fun e _ => e = .assertion) := by
  refine ⟨⟨rootState_holds _, twoExtentEntries_ok, fun kv hmeets => ?_, trivial⟩, rfl⟩
  obtain ⟨b, hb, -⟩ := hmeets
  have hzero : decodeU64 [0] = 0 := by decide
  simp [hzero] at hb

end IndexFs.Tree
