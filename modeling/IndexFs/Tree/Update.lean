import IndexFs.Tree.Lookup
import IndexFs.Tree.RemoveKey

/-!
# `index_update_value`

The function removes the key, whatever that returns, and inserts it with the new
value. The removal compares keys only, the insertion keys and values, so it may
refuse because of an entry that the removal did not look at.

* `HoldsMap`: the entries that the state of an object holds, in any order.
* `AllOrNothing`: the old entries with the key bound to the new value, or, with an
  error, the old ones.
* `allOrNothing_iff`: exactly when the function does that.
* `update_exact`: this under the rules that order keys by a rank, and under `CR_EXTENT`.
-/

namespace IndexFs.Tree

open IndexFs.Multiway IndexFs.Collate IndexFs.Space

variable {σ : Type} {m : ContainerModel σ} {t t' : ObjectTree σ} {H : ℕ} {env : TreeEnv σ}
  {n : TNode (H + 1)} {key value : Bytes} {cmp cmp' : KeyValue → ℤ} {l : List KeyValue}

/-! ## The map of an object -/

/-- The state holds a tree with the entries `l`, in some order. -/
def HoldsMap (m : ContainerModel σ) (t : ObjectTree σ) (l : List KeyValue) : Prop :=
  ∃ (H : ℕ) (n : TNode (H + 1)), HoldsTree m t n ∧ n.elems.Perm l

theorem HoldsTree.holdsMap (hn : HoldsTree m t n) : HoldsMap m t n.elems := ⟨H, n, hn, .refl _⟩

theorem HoldsMap.perm {l' : List KeyValue} (h : HoldsMap m t l) (h' : HoldsMap m t l') : l.Perm l' := by
  obtain ⟨H₁, n₁, hn₁, hl₁⟩ := h
  obtain ⟨H₂, n₂, hn₂, hl₂⟩ := h'
  rw [← hn₁.elems_unique hn₂] at hl₂
  exact hl₁.symm.trans hl₂

/-- The entries `l` with `key` bound to `value`, where `cmp` compares to the key. -/
def bindKey (cmp : KeyValue → ℤ) (key value : Bytes) (l : List KeyValue) : List KeyValue :=
  (key, value) :: l.filter fun kv => cmp kv ≠ 0

/-- `index_update_value` binds the key, or fails and leaves the map as it was. -/
def AllOrNothing (env : TreeEnv σ) (m : ContainerModel σ) (t : ObjectTree σ) (cmp : KeyValue → ℤ)
    (key value : Bytes) (l : List KeyValue) : Prop :=
  Ends (indexUpdateValue env key value) t (fun _ t' => HoldsMap m t' (bindKey cmp key value l))
    (fun _ t' => HoldsMap m t' l)

theorem filter_missing (hl : ∀ kv ∈ l, cmp kv ≠ 0) : (l.filter fun kv => cmp kv ≠ 0) = l :=
  List.filter_eq_self.mpr fun kv hkv => by simpa using hl kv hkv

theorem filter_stored {l r : List KeyValue} {kv : KeyValue} (hs : Strict cmp (l ++ kv :: r)) (h0 : cmp kv = 0) :
    ((l ++ kv :: r).filter fun kv => cmp kv ≠ 0) = l ++ r := by
  obtain ⟨hl, hr⟩ := hs.split h0
  rw [List.filter_append, List.filter_cons_of_neg (by simp [h0]), filter_missing fun x hx => (hl x hx).ne,
    filter_missing fun x hx => (hr x hx).ne']

/-! ## Removal, then insertion -/

/-- How the stored entries compare to the key alone, by `cmp`, and to the key with the new value, by `cmp'`. -/
structure Queries (cr : CollateRule) (key value : Bytes) (cmp cmp' : KeyValue → ℤ) (l : List KeyValue) : Prop where
  compares : Compares cr key [] cmp l
  strict : Strict cmp l
  comparesValue : Compares cr key value cmp' l
  sorting : Sorting cmp' l

theorem Compares.subset {cr : CollateRule} {l' : List KeyValue} (h : Compares cr key value cmp l) (hl : l' ⊆ l) :
    Compares cr key value cmp l' := fun kv hkv => h kv (hl hkv)

/-- No other entry compares equal to the key with the new value, if the key is stored. -/
def Alone (cmp cmp' : KeyValue → ℤ) (l : List KeyValue) : Prop :=
  (∃ kv ∈ l, cmp kv = 0) → ∀ x ∈ l, cmp x ≠ 0 → cmp' x ≠ 0

section Update

variable (hl : LawfulEnv env m False) (hn : HoldsTree m t n) (hok : TreeOk n)
  (hdepth : knownDepth t H + 3 < treeMaxDepth) (hkv : KeyValueOk (key, value))

include hl hkv in
/-- The insertion into what the removal has left. -/
theorem insert_holdsMap {n : TNode (H + 1)} (hn : HoldsTree m t n) (hok : TreeOk n)
    (hdepth : knownDepth t H + 1 < treeMaxDepth) (hcmp : Compares env.cr key value cmp' n.elems)
    (hsort : Sorting cmp' n.elems) :
    Ends (indexInsertKeyNolock env key value) t
      (fun _ t' => (∀ x ∈ n.elems, cmp' x ≠ 0) ∧ HoldsMap m t' ((key, value) :: n.elems))
      (fun _ t' => (∃ x ∈ n.elems, cmp' x = 0) ∧ HoldsMap m t' n.elems) := by
  have hknown : H ≤ knownDepth t H := le_knownDepth
  refine (indexInsertKeyNolock_sorted hl hn hok (by omega) hkv hcmp hsort).mono (fun _ t' hpost => ?_)
    fun e t' herr => ?_
  · obtain ⟨l, r, hlr, hleft, hright, H', n', hholds, -, -, helems⟩ := hpost
    refine ⟨fun x hx => ?_, H', n', hholds, ?_⟩
    · rw [hlr] at hx
      rcases List.mem_append.mp hx with hx | hx
      · exact (hleft x hx).ne
      · exact (hright x hx).ne'
    · rw [helems, hlr]
      exact List.perm_middle
  · rcases herr with herr | ⟨-, hmax⟩ | ⟨-, hequal, hholds⟩
    · exact herr.elim
    · omega
    · exact ⟨hequal, hholds.holdsMap⟩

include hl hn hok hdepth hkv

/-- When the entry of the key can be removed, the insertion decides. -/
theorem update_room (hq : Queries env.cr key value cmp cmp' n.elems) (hroom : HasRoom cmp n) :
    Ends (indexUpdateValue env key value) t
      (fun _ t' => HoldsMap m t' (bindKey cmp key value n.elems) ∧ Alone cmp cmp' n.elems)
      (fun _ t' => HoldsMap m t' (n.elems.filter fun kv => cmp kv ≠ 0) ∧
        ((∃ kv ∈ n.elems, cmp kv = 0) → ¬ Alone cmp cmp' n.elems)) := by
  have hknown : H ≤ knownDepth t H := le_knownDepth
  have hkey : key ≠ [] := List.length_pos_iff.mp hkv.key_pos
  unfold indexUpdateValue
  rw [if_neg hkey, ends_bind, ends_codeOf]
  refine (indexRemoveKeyNolock_sorted hl hn hok (by omega) hkey hq.compares hq.strict hroom).mono
    (fun _ t₁ hpost => ?_) fun e t₁ herr => ?_
  · obtain ⟨l, kv, r, helems, h0, H₁, n₁, hn₁, hok₁, -, hknown₁, hlr⟩ := hpost
    have hsub : (l ++ r).Sublist n.elems := by
      rw [helems]
      exact (List.Sublist.refl l).append (List.sublist_cons_self kv r)
    have hfilter : (n.elems.filter fun kv => cmp kv ≠ 0) = l ++ r := by
      have hs := hq.strict
      rw [helems] at hs ⊢
      exact filter_stored hs h0
    have hother : ∀ x, x ∈ l ++ r ↔ x ∈ n.elems ∧ cmp x ≠ 0 := by
      simp [← hfilter, List.mem_filter]
    refine (insert_holdsMap hl hkv hn₁ hok₁ (by omega) (hq.comparesValue.subset (hlr ▸ hsub.subset))
      (hq.sorting.sublist (hlr ▸ hsub))).mono (fun _ t' hins => ?_) fun e t' hins => ?_
    · rw [hlr] at hins
      unfold bindKey
      rw [hfilter]
      exact ⟨hins.2, fun _ x hx hne => hins.1 x ((hother x).mpr ⟨hx, hne⟩)⟩
    · rw [hlr] at hins
      obtain ⟨⟨x, hx, hx0⟩, hmap⟩ := hins
      rw [hfilter]
      refine ⟨hmap, fun hstored halone => ?_⟩
      obtain ⟨hmem, hne⟩ := (hother x).mp hx
      exact halone hstored x hmem hne hx0
  · rcases herr with herr | ⟨-, hdeep⟩ | ⟨rfl, hmissed, hn₁, hknown₁⟩
    · exact herr.elim
    · omega
    · rw [if_neg (by decide)]
      refine (insert_holdsMap hl hkv hn₁ hok (by omega) hq.comparesValue hq.sorting).mono
        (fun _ t' hins => ?_) fun e t' hins => ?_
      · unfold bindKey
        rw [filter_missing hmissed]
        exact ⟨hins.2, fun ⟨kv, hkv, h0⟩ => absurd h0 (hmissed kv hkv)⟩
      · rw [filter_missing hmissed]
        exact ⟨hins.2, fun ⟨kv, hkv, h0⟩ => absurd h0 (hmissed kv hkv)⟩

/-- When it cannot, another entry is there twice afterwards. -/
theorem update_full (hq : Queries env.cr key value cmp cmp' n.elems) (hfull : ¬ HasRoom cmp n) :
    Ends (indexUpdateValue env key value) t
      (fun _ t' => ∃ l succ, HoldsMap m t' ((key, value) :: l) ∧ [succ, succ].Sublist l)
      (fun _ t' => ∃ l succ, HoldsMap m t' l ∧ [succ, succ].Sublist l) := by
  have hknown : H ≤ knownDepth t H := le_knownDepth
  have hkey : key ≠ [] := List.length_pos_iff.mp hkv.key_pos
  unfold indexUpdateValue
  rw [if_neg hkey, ends_bind, ends_codeOf]
  refine (indexRemoveKeyNolock_full hl hn hok (by omega) hkey hq.compares hq.strict hfull).mono
    (fun _ t₁ hpost => ?_) fun e t₁ herr => ?_
  · obtain ⟨l, kv, r, succ, helems, h0, H₁, n₁, hn₁, hok₁, -, hknown₁, htwo, hsub⟩ := hpost
    have hsort : Sorting cmp' (l ++ succ :: succ :: r) := by
      have hs : Sorting cmp' (l ++ succ :: r) := hq.sorting.sublist (by simp [helems])
      obtain ⟨hpl, hpr, hlr⟩ := List.pairwise_append.mp hs
      refine List.pairwise_append.mpr ⟨hpl, List.pairwise_cons.mpr ⟨fun x hx => ?_, hpr⟩, fun x hx y hy => ?_⟩
      · rcases List.mem_cons.mp hx with rfl | hx
        · exact ⟨id, id⟩
        · exact (List.pairwise_cons.mp hpr).1 x hx
      · exact hlr x hx y (by simpa using hy)
    have hsubset : n₁.elems ⊆ n.elems := by
      intro x hx
      have := hsub.subset hx
      rw [helems]
      simp only [List.mem_append, List.mem_cons] at this ⊢
      tauto
    refine (insert_holdsMap hl hkv hn₁ hok₁ (by omega) (hq.comparesValue.subset hsubset)
      (hsort.sublist hsub)).mono (fun _ t' hins => ?_) fun e t' hins => ?_
    · exact ⟨n₁.elems, succ, hins.2, htwo⟩
    · exact ⟨n₁.elems, succ, hins.2, htwo⟩
  · rcases herr with herr | ⟨-, hdeep⟩
    · exact herr.elim
    · omega

/-- `index_update_value` does what it should exactly when the entry of the key can be removed without a
split and no other entry is in the way of the new value. -/
theorem allOrNothing_iff (hq : Queries env.cr key value cmp cmp' n.elems) (hnodup : n.elems.Nodup) :
    AllOrNothing env m t cmp key value n.elems ↔ HasRoom cmp n ∧ Alone cmp cmp' n.elems := by
  constructor
  · intro hall
    have hroom : HasRoom cmp n := by
      by_contra hfull
      rcases ends_iff.mp ((update_full hl hn hok hdepth hkv hq hfull).and hall) with
        ⟨_, t', -, ⟨l, succ, hmap, htwo⟩, hmap'⟩ | ⟨e, t', -, ⟨l, succ, hmap, htwo⟩, hmap'⟩
      · have hperm := List.Perm.cons_inv (hmap.perm hmap')
        exact List.nodup_iff_sublist.mp (hperm.nodup_iff.mpr (hnodup.filter _)) succ htwo
      · exact List.nodup_iff_sublist.mp ((hmap.perm hmap').nodup_iff.mpr hnodup) succ htwo
    refine ⟨hroom, fun hstored => ?_⟩
    rcases ends_iff.mp ((update_room hl hn hok hdepth hkv hq hroom).and hall) with
      ⟨_, t', -, ⟨-, halone⟩, -⟩ | ⟨e, t', -, ⟨hmap, -⟩, hmap'⟩
    · exact halone hstored
    · obtain ⟨kv, hmem, h0⟩ := hstored
      have hkept := (hmap.perm hmap').mem_iff.mpr hmem
      simp [h0] at hkept
  · rintro ⟨hroom, halone⟩
    refine (update_room hl hn hok hdepth hkv hq hroom).mono (fun _ t' hpost => hpost.1) fun e t' herr => ?_
    obtain ⟨hmap, hconflict⟩ := herr
    have hmissed : ∀ kv ∈ n.elems, cmp kv ≠ 0 := fun kv hmem h0 => hconflict ⟨kv, hmem, h0⟩ halone
    rwa [filter_missing hmissed] at hmap

end Update

/-! ## Under the rules -/

/-- What a stored extent compares to under the search for a start without a length. -/
def cmpStart (key : Bytes) (kv : KeyValue) : ℤ := collateOrd (decodeU64 kv.1) (decodeU64 key)

theorem KeysOk.queries {cr : CollateRule} (hcr : cr.Ranked) (hk : KeysOk cr l) (hkey : Collatable cr key) :
    Queries cr key value (cmpKey cr key) (cmpKey cr key) l :=
  ⟨hk.compares hcr hkey, hk.strict, hk.compares hcr hkey, hk.sorting⟩

theorem KeysOk.nodup {cr : CollateRule} (hk : KeysOk cr l) : l.Nodup := by
  refine hk.sorted.imp fun hab heq => ?_
  rw [heq] at hab
  exact lt_irrefl _ hab

/-- The starts of extents increase. -/
theorem ExtentsOk.starts (hx : ExtentsOk l) : l.Pairwise fun a b => decodeU64 a.1 < decodeU64 b.1 := by
  have hsep := List.pairwise_map.mp hx.extents.separated
  refine hsep.imp_of_mem fun {a b} ha _ hab => ?_
  have hpos := hx.extents.nonempty (decodeExtent a) (List.mem_map_of_mem ha)
  unfold decodeExtent at hab hpos
  dsimp only at hab hpos
  omega

theorem ExtentsOk.queries (hx : ExtentsOk l) (hkey : IsU64 key) (hvalue : IsU64 value) :
    Queries .extent key value (cmpStart key)
      (fun kv => extentOrd (decodeU64 key) (decodeU64 value) (decodeExtent kv)) l := by
  refine ⟨fun kv hkv ie hie1 _ => ?_, ?_, compares_extent hx hkey hvalue, sorting_extent hx _ _⟩
  · have h1 := (hx.decodable kv hkv).1
    unfold collateKey
    rw [if_neg hkey.ne_nil]
    simp only [osCollateExtent, true_or, if_true, osCollateU64, hie1, osBstrToU64_decode h1,
      osBstrToU64_decode hkey, bind, Except.bind, pure, Except.pure, cmpStart]
  · refine hx.starts.imp fun {a b} hab hge => ?_
    unfold cmpStart at hge ⊢
    rw [← not_lt, collateOrd_neg, not_lt] at hge
    rw [collateOrd_pos]
    exact hge.trans_lt hab

/-- `index_update_value` does what it should exactly when the entry of the key can be removed without a
split and no other entry compares equal to the key with the new value. Under the rules that order keys by
a rank no other entry does; under `CR_EXTENT` one does when the new extent shares a block with it. -/
theorem update_exact (hl : LawfulEnv env m False) (hn : HoldsTree m t n) (hok : TreeOk n)
    (hdepth : knownDepth t H + 3 < treeMaxDepth) :
    (∀ key value cmp cmp', KeyValueOk (key, value) → Queries env.cr key value cmp cmp' n.elems → n.elems.Nodup →
      (AllOrNothing env m t cmp key value n.elems ↔ HasRoom cmp n ∧ Alone cmp cmp' n.elems)) ∧
    (env.cr.Ranked → KeysOk env.cr n.elems → ∀ key value, KeyValueOk (key, value) → Collatable env.cr key →
      (AllOrNothing env m t (cmpKey env.cr key) key value n.elems ↔ HasRoom (cmpKey env.cr key) n)) ∧
    (env.cr = .extent → ExtentsOk n.elems → ∀ key value, IsU64 key → IsU64 value → 1 ≤ decodeU64 value →
      decodeU64 key + decodeU64 value < 2 ^ 64 →
      (AllOrNothing env m t (cmpStart key) key value n.elems ↔ HasRoom (cmpStart key) n ∧
        ((∃ kv ∈ n.elems, decodeU64 kv.1 = decodeU64 key) →
          ∀ x ∈ n.elems, decodeU64 x.1 ≠ decodeU64 key → ¬ Meets key value x))) := by
  refine ⟨fun key value cmp cmp' hkv hq hnodup => allOrNothing_iff hl hn hok hdepth hkv hq hnodup,
    fun hcr hkeys key value hkv hkey => ?_, fun hcr hext key value hkey hvalue hpos hend => ?_⟩
  · rw [allOrNothing_iff hl hn hok hdepth hkv (hkeys.queries hcr hkey) hkeys.nodup]
    exact and_iff_left fun _ _ _ hne => hne
  · have hkv : KeyValueOk (key, value) := ⟨hkey.1, hkey.2.trans (by decide), hvalue.2.trans (by decide)⟩
    have hnodup : n.elems.Nodup := hext.starts.imp fun hab heq => by
      rw [heq] at hab
      exact lt_irrefl _ hab
    rw [allOrNothing_iff hl hn hok hdepth hkv (hcr ▸ hext.queries hkey hvalue) hnodup]
    unfold Alone cmpStart
    simp only [collateOrd_eq_zero, ne_eq]
    refine and_congr_right fun _ => forall_congr' fun _ => forall₂_congr fun x hx => imp_congr_right fun _ => ?_
    rw [hext.meets_iff hpos hend hx]

theorem rootTree_twoExtentEntries_ok : TreeOk (rootTree twoExtentEntries) := by
  refine rootTree_ok ⟨by decide, fun kv hkv => ?_⟩
  simp only [twoExtentEntries, List.mem_cons, List.not_mem_nil, or_false] at hkv
  rcases hkv with rfl | rfl
  all_goals exact ⟨by decide, by decide, by decide⟩

theorem hasRoom_rootTree (cmp : KeyValue → ℤ) (l : List KeyValue) : HasRoom cmp (rootTree l) :=
  ⟨trivial, trivial, fun _ _ => trivial⟩

/-- The extent `[4, 10)` grows to `[4, 13)`. -/
theorem update_exact_grow : AllOrNothing (countingEnv .extent) countingModel (rootState twoExtentEntries)
    (cmpStart [4]) [4] [9] twoExtentEntries := by
  have hexact := (update_exact (countingEnv_lawful .extent) (rootState_holds twoExtentEntries)
    rootTree_twoExtentEntries_ok (by decide)).2.2 rfl
  rw [rootTree_elems] at hexact
  refine (hexact twoExtentEntries_ok [4] [9] ⟨by decide, by decide⟩ ⟨by decide, by decide⟩ (by decide)
    (by decide)).mpr ⟨hasRoom_rootTree _ _, fun _ x hx hne hmeets => ?_⟩
  simp only [twoExtentEntries, List.mem_cons, List.not_mem_nil, or_false] at hx
  rcases hx with rfl | rfl
  · exact absurd rfl hne
  · obtain ⟨b, ⟨-, hb⟩, hb', -⟩ := hmeets
    change b < 4 + 9 at hb
    change 20 ≤ b at hb'
    omega

/-- The extent `[4, 10)` cannot grow to `[4, 21)`, which meets `[20, 23)`; the call says so, and the extent
is gone. Under `CR_EXTENT_MAP` the entries of a tree need not be in the order of their keys: an update that
returns zero stores a key a second time. -/
theorem update_loses_extent :
    ExtentsOk twoExtentEntries ∧ HoldsTree countingModel (rootState twoExtentEntries) (rootTree twoExtentEntries) ∧
    Ends (indexUpdateValue (countingEnv .extent) [4] [17]) (rootState twoExtentEntries) (fun _ _ => False)
      (fun e t' => e = .keyExist ∧ HoldsMap countingModel t' [([20], [3])]) ∧
    ¬ AllOrNothing (countingEnv .extent) countingModel (rootState twoExtentEntries) (cmpStart [4]) [4] [17]
      twoExtentEntries ∧
    Ends (do
        indexInsertKeyNolock (countingEnv .extentMap) [0] [1, 100, 10]
        indexInsertKeyNolock (countingEnv .extentMap) [5] [1, 50, 10]
        indexUpdateValue (countingEnv .extentMap) [0] [1, 200, 3]) (rootState [])
      (fun _ t' => t'.rootIb.entries.map IndexEntry.key = [[0], [5], [0], []]) (fun _ _ => False) := by
  have hrun : Ends (indexUpdateValue (countingEnv .extent) [4] [17]) (rootState twoExtentEntries)
      (fun _ _ => False) (fun e _ => e = .keyExist) := rfl
  have hq : Queries .extent [4] [17] (cmpStart [4]) _ twoExtentEntries :=
    twoExtentEntries_ok.queries ⟨by decide, by decide⟩ ⟨by decide, by decide⟩
  have hkv : KeyValueOk (([4], [17]) : KeyValue) := ⟨by decide, by decide, by decide⟩
  have hmap := update_room (countingEnv_lawful .extent) (rootState_holds twoExtentEntries)
    rootTree_twoExtentEntries_ok (by decide) hkv
    (by rw [rootTree_elems]; exact hq) (hasRoom_rootTree _ _)
  rw [rootTree_elems] at hmap
  have hlost : Ends (indexUpdateValue (countingEnv .extent) [4] [17]) (rootState twoExtentEntries)
      (fun _ _ => False) (fun e t' => e = .keyExist ∧ HoldsMap countingModel t' [([20], [3])]) :=
    (hrun.and hmap).mono (fun _ _ h => h.1) fun e t' h => ⟨h.1, h.2.1⟩
  refine ⟨twoExtentEntries_ok, rootState_holds _, hlost, fun hall => ?_, rfl⟩
  rcases ends_iff.mp (hlost.and hall) with ⟨_, _, _, h, -⟩ | ⟨_, t', -, ⟨-, h⟩, h'⟩
  · exact h
  · exact absurd (h.perm h').length_eq (by decide)

end IndexFs.Tree
