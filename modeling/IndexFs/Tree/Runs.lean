import IndexFs.Lib.KeyedList
import IndexFs.Tree.Assertions
import IndexFs.Tree.Lookup
import IndexFs.Tree.RemoveKey

/-!
# Runs of a table are runs of a map

A table whose entries all have the same length never comes to the split in
`remove_node`: the entry that takes the place of a removed one has the room of that
one. Every run of insertions, searches and removals on such a table is a run of a
partial map from keys to entries, up to a call that fails because the tree has
`TREE_MAX_DEPTH` levels.

Results:

* `hasRoom_of_sized`: with entries of one length every removal has room.
* `answer_refines`: one call and one step of the map.
* `treeRun_refines`: a run, its answers and its last state.
-/

namespace IndexFs.Tree

open IndexFs.Multiway IndexFs.Collate

variable {σ : Type} {m : ContainerModel σ} {t : ObjectTree σ} {H h : ℕ} {env : TreeEnv σ} {size : ℕ}
  {key value : Bytes}

/-! ## Entries of one length -/

/-- The bytes of a key and its value. -/
def payload (kv : KeyValue) : ℕ := kv.1.length + kv.2.length

theorem ieLen_eq_of_payload {large : Bool} {x y : KeyValue} (h : payload x = payload y) :
    ieLen large x = ieLen large y := by
  unfold payload at h
  unfold ieLen
  omega

/-- The blocks of a tree are not larger than a block. -/
theorem TreeOk.fits {n : TNode (H + 1)} (hok : TreeOk n) :
    n.Forall fun h b => usedBytes (isLarge h) (b.rest.map Prod.fst) ≤ blockSize := by
  have hnode : ∀ {c : TNode H}, NodeOk c → c.Forall fun h b => usedBytes (isLarge h) (b.rest.map Prod.fst) ≤ blockSize := by
    intro c hc
    exact Node.Forall.imp_labels hc fun h b _ hb => hb.1.fits
  refine ⟨hok.root.fits.trans (by decide), hnode hok.first, ?_⟩
  intro x hx
  exact hnode (hok.rest x hx)

/-- An entry behind another one has room in its place if both have the same length. -/
theorem replaceable_of_sized (cmp : KeyValue → ℤ) {n : TNode h} (hsize : ∀ kv ∈ n.elems, payload kv = size)
    (hfits : n.Forall fun h b => usedBytes (isLarge h) (b.rest.map Prod.fst) ≤ blockSize) : HasRoom cmp n := by
  unfold HasRoom
  induction h with
  | zero => exact trivial
  | succ h ih =>
    obtain ⟨i, c, rest, rfl⟩ := n.exists_block
    rw [Node.elems_block, Node.elemsAfter, List.forall_mem_append] at hsize
    obtain ⟨hc, hrest⟩ := hsize
    rw [List.forall_mem_flatMap] at hrest
    obtain ⟨hroot, hfirst, hchildren⟩ := Node.forall_block.mp hfits
    refine Node.forall_block.mpr ⟨?_, ih hc hfirst, ?_⟩
    · cases h with
      | zero => exact trivial
      | succ h =>
        intro x hx _ succ hsucc
        have hx' := List.forall_mem_cons.mp (hrest x hx)
        have hlen : ieLen true succ = ieLen true x.1 := by
          apply ieLen_eq_of_payload
          rw [hx'.1, hx'.2 succ (List.mem_of_mem_head? hsucc)]
        have hused : usedBytes true (rest.map Prod.fst) ≤ blockSize := hroot
        show usedBytes true (rest.map Prod.fst) + ieLen true succ ≤ blockSize + ieLen true x.1
        omega
    · intro x hx
      exact ih (fun kv hkv => hrest x hx kv (List.mem_cons_of_mem _ hkv)) (hchildren x hx)

theorem hasRoom_of_sized (cmp : KeyValue → ℤ) {n : TNode (H + 1)} (hok : TreeOk n)
    (hsize : ∀ kv ∈ n.elems, payload kv = size) : HasRoom cmp n := replaceable_of_sized cmp hsize hok.fits

/-! ## The map -/

/-- A partial map: what a key compares by, and the entry with an equal key. -/
abbrev KeyMap := List ℤ → Option KeyValue

/-- The map of some entries. -/
def mapOf (cr : CollateRule) (l : List KeyValue) : KeyMap := keyedMap (fun kv => collateRank cr kv.1) l

/-- What a call on the map answers, and the map after it. A search answers with the entry. -/
def mapStep (cr : CollateRule) (f : KeyMap) : TreeCall → Except ErrorCode (Option KeyValue) × KeyMap
  | .insert key value =>
    match f (collateRank cr key) with
    | none => (.ok none, Function.update f (collateRank cr key) (some (key, value)))
    | some _ => (.error .keyExist, f)
  | .search key _ =>
    match f (collateRank cr key) with
    | none => (.error .keyNotFound, f)
    | some kv => (.ok (some kv), f)
  | .remove key =>
    match f (collateRank cr key) with
    | none => (.error .keyNotFound, f)
    | some _ => (.ok none, Function.update f (collateRank cr key) none)
  | .update key value => (.ok none, Function.update f (collateRank cr key) (some (key, value)))

/-- A run of the map. -/
def mapRun (cr : CollateRule) : List TreeCall → KeyMap → List (Except ErrorCode (Option KeyValue)) × KeyMap
  | [], f => ([], f)
  | c :: cs, f =>
    let rest := mapRun cr cs (mapStep cr f c).2
    ((mapStep cr f c).1 :: rest.1, rest.2)

/-- A call on the tree. After a search the caller finds the entry under the cursor. -/
def TreeCall.answer (env : TreeEnv σ) : TreeCall → TreeM σ (Option KeyValue)
  | .search key value => do
    indexSearchKeyNolock env key value
    let ie ← currentIe
    return some (ie.key, ie.value)
  | c => do
    c.run env
    return none

/-- A run of the tree: the answers and the last state. -/
def treeRun (env : TreeEnv σ) : List TreeCall → ObjectTree σ →
    List (Except ErrorCode (Option KeyValue)) × ObjectTree σ
  | [], t => ([], t)
  | c :: cs, t =>
    match c.answer env t with
    | .ok a t' => (.ok a :: (treeRun env cs t').1, (treeRun env cs t').2)
    | .error e t' => (.error e :: (treeRun env cs t').1, (treeRun env cs t').2)

/-- The keys that a call may pass, and the length of the entry that it inserts. The code of the removal in
`index_update_value` is lost, so that call is left out. -/
def TreeCall.Sized (cr : CollateRule) (size : ℕ) : TreeCall → Prop
  | .insert key value => KeyValueOk (key, value) ∧ Collatable cr key ∧ payload (key, value) = size
  | .search key _ => Collatable cr key
  | .remove key => Collatable cr key
  | .update _ _ => False

/-- The state holds a well-formed tree with entries of one length, which are those of the map. -/
def HoldsKeys (cr : CollateRule) (m : ContainerModel σ) (size : ℕ) (t : ObjectTree σ) (f : KeyMap) : Prop :=
  ∃ (H : ℕ) (n : TNode (H + 1)), WellFormed cr m t n ∧ (∀ kv ∈ n.elems, payload kv = size) ∧ mapOf cr n.elems = f

section Calls

variable {f : KeyMap} {cr : CollateRule} {l r : List KeyValue} {kv : KeyValue}

theorem KeysOk.distinct (hk : KeysOk cr l) :
    l.Pairwise fun a b => collateRank cr a.1 ≠ collateRank cr b.1 := hk.sorted.imp fun hab => hab.ne

theorem mapOf_eq_some (hk : KeysOk cr l) (hkv : kv ∈ l) : mapOf cr l (collateRank cr kv.1) = some kv :=
  (keyedMap_eq_some hk.distinct).mpr ⟨hkv, rfl⟩

/-- Removing an entry removes its key. -/
theorem mapOf_remove (hk : KeysOk cr (l ++ kv :: r)) :
    mapOf cr (l ++ r) = Function.update (mapOf cr (l ++ kv :: r)) (collateRank cr kv.1) none := by
  obtain ⟨-, hright, hleft⟩ := List.pairwise_append.mp hk.distinct
  apply keyedMap_remove
  · intro x hx
    exact hleft x hx kv List.mem_cons_self
  · intro x hx
    exact ((List.pairwise_cons.mp hright).1 x hx).symm

theorem insert_refines_map (hl : LawfulEnv env m False) (hcr : env.cr.Ranked) (h : HoldsKeys env.cr m size t f)
    (hkv : KeyValueOk (key, value)) (hkey : Collatable env.cr key) (hsize : payload (key, value) = size) :
    Ends (indexInsertKeyNolock env key value) t
      (fun _ t' => f (collateRank env.cr key) = none ∧
        HoldsKeys env.cr m size t' (Function.update f (collateRank env.cr key) (some (key, value))))
      (fun e t' => e = .reparent ∨
        e = .keyExist ∧ (∃ kv, f (collateRank env.cr key) = some kv) ∧ HoldsKeys env.cr m size t' f) := by
  obtain ⟨H, n, hw, hsizes, rfl⟩ := h
  refine (indexInsertKeyNolock_spec hl hcr hw hkv hkey).mono (fun _ t' hpost => ?_) fun e t' herr => ?_
  · obtain ⟨l, r, hn, hleft, hright, H', n', hw', hn'⟩ := hpost
    have hne : ∀ x ∈ l ++ r, collateRank env.cr x.1 ≠ collateRank env.cr key := by
      intro x hx
      rcases List.mem_append.mp hx with hx | hx
      · exact (hleft x hx).ne
      · exact (hright x hx).ne'
    rw [hn] at hsizes ⊢
    refine ⟨keyedMap_eq_none.mpr hne, H', n', hw', ?_, ?_⟩
    · intro kv hkv
      rw [hn'] at hkv
      rcases List.mem_append.mp hkv with hkv | hkv
      · exact hsizes kv (List.mem_append_left r hkv)
      · rcases List.mem_cons.mp hkv with rfl | hkv
        · exact hsize
        · exact hsizes kv (List.mem_append_right l hkv)
    · rw [hn']
      exact keyedMap_insert fun x hx => hne x (List.mem_append_left r hx)
  · rcases herr with herr | ⟨he, -⟩ | ⟨he, ⟨kv, hkv, heq⟩, hw'⟩
    · exact herr.elim
    · exact .inl he
    · refine .inr ⟨he, ⟨kv, ?_⟩, H, n, hw', hsizes, rfl⟩
      rw [← heq]
      exact mapOf_eq_some hw.keys hkv

theorem remove_refines_map (hl : LawfulEnv env m False) (hcr : env.cr.Ranked) (h : HoldsKeys env.cr m size t f)
    (hkey : Collatable env.cr key) :
    Ends (indexRemoveKeyNolock env key) t
      (fun _ t' => (∃ kv, f (collateRank env.cr key) = some kv) ∧
        HoldsKeys env.cr m size t' (Function.update f (collateRank env.cr key) none))
      (fun e t' => e = .reparent ∨
        e = .keyNotFound ∧ f (collateRank env.cr key) = none ∧ HoldsKeys env.cr m size t' f) := by
  obtain ⟨H, n, hw, hsizes, rfl⟩ := h
  have hroom := hasRoom_of_sized (cmpKey env.cr key) hw.blocks hsizes
  refine (indexRemoveKeyNolock_sorted hl hw.holds hw.blocks hw.height hkey.1 (hw.keys.compares hcr hkey)
    hw.keys.strict hroom).mono (fun _ t' hpost => ?_) fun e t' herr => ?_
  · obtain ⟨l, kv, r, hn, h0, H', n', hholds, hok, hH', -, hn'⟩ := hpost
    have heq : collateRank env.cr kv.1 = collateRank env.cr key := cmpKey_eq_zero.mp h0
    have hkeys := hw.keys
    rw [hn] at hsizes hkeys ⊢
    have hsub : (l ++ r).Sublist (l ++ kv :: r) := (List.Sublist.refl l).append (List.sublist_cons_self kv r)
    rw [← heq]
    refine ⟨⟨kv, mapOf_eq_some hkeys (by simp)⟩, H', n', ⟨hholds, hok, hH', ?_⟩, ?_, ?_⟩
    · rw [hn']
      exact hkeys.sublist hsub
    · rw [hn']
      intro x hx
      exact hsizes x (hsub.subset hx)
    · rw [hn']
      exact mapOf_remove hkeys
  · rcases herr with herr | ⟨he, -⟩ | ⟨he, hne, hholds, -⟩
    · exact herr.elim
    · exact .inl he
    · refine .inr ⟨he, keyedMap_eq_none.mpr ?_, H, n, ⟨hholds, hw.blocks, hw.height, hw.keys⟩, hsizes, rfl⟩
      intro kv hkv heq
      exact hne kv hkv (cmpKey_eq_zero.mpr heq)

/-- A search rests on the entry with the key and leaves the tree alone. -/
theorem search_refines_map (hl : LawfulEnv env m False) (hcr : env.cr.Ranked) (h : HoldsKeys env.cr m size t f)
    (hkey : Collatable env.cr key) :
    Ends (indexSearchKeyNolock env key value) t
      (fun _ t' => HoldsKeys env.cr m size t' f ∧ ∃ kv, f (collateRank env.cr key) = some kv ∧
        Ends currentIe t' (fun ie t'' => (ie.key, ie.value) = kv ∧ t'' = t') fun _ _ => False)
      (fun e t' => e = .keyNotFound ∧ f (collateRank env.cr key) = none ∧ HoldsKeys env.cr m size t' f) := by
  obtain ⟨H, n, hw, hsizes, rfl⟩ := h
  refine (indexSearchKeyNolock_spec hl hw.height hw.holds hkey.1 (hw.keys.compares hcr hkey)
    hw.keys.sorting).mono (fun _ t' hpost => ?_) fun e t' herr => ?_
  · obtain ⟨l, kv, r, hrests, h0⟩ := hpost
    have heq : collateRank env.cr kv.1 = collateRank env.cr key := cmpKey_eq_zero.mp h0
    refine ⟨⟨H, n, ⟨hrests.holdsTree, hw.blocks, hw.height, hw.keys⟩, hsizes, rfl⟩, kv, ?_, ?_⟩
    · rw [← heq]
      apply mapOf_eq_some hw.keys
      rw [hrests.elems]
      exact List.mem_append_right l List.mem_cons_self
    · exact hrests.currentIe fun ie hk hv _ => ⟨by rw [hk, hv], rfl⟩
  · obtain ⟨he, hne, hnear⟩ := herr
    refine ⟨he, keyedMap_eq_none.mpr ?_, H, n, ⟨?_, hw.blocks, hw.height, hw.keys⟩, hsizes, rfl⟩
    · intro kv hkv heq
      exact hne kv hkv (cmpKey_eq_zero.mpr heq)
    · rcases hnear with ⟨l, kv, r, hrests, -⟩ | ⟨hend, -⟩
      · exact hrests.holdsTree
      · exact hend.holdsTree

/-- One call and one step of the map, if the tree does not become too deep. -/
theorem answer_refines (hl : LawfulEnv env m False) (hcr : env.cr.Ranked) (h : HoldsKeys env.cr m size t f)
    {c : TreeCall} (hc : c.Sized env.cr size) :
    Ends (c.answer env) t
      (fun a t' => (mapStep env.cr f c).1 = .ok a ∧ HoldsKeys env.cr m size t' (mapStep env.cr f c).2)
      (fun e t' => e = .reparent ∨
        (mapStep env.cr f c).1 = .error e ∧ HoldsKeys env.cr m size t' (mapStep env.cr f c).2) := by
  cases c with
  | insert key value =>
    obtain ⟨hkv, hkey, hsize⟩ := hc
    unfold TreeCall.answer TreeCall.run
    rw [ends_bind]
    refine (insert_refines_map hl hcr h hkv hkey hsize).mono (fun _ t' hpost => ?_) fun e t' herr => ?_
    · obtain ⟨hnone, hholds⟩ := hpost
      simp only [mapStep, hnone]
      exact ⟨rfl, hholds⟩
    · refine herr.imp_right ?_
      rintro ⟨rfl, ⟨kv, hsome⟩, hholds⟩
      simp only [mapStep, hsome]
      exact ⟨trivial, hholds⟩
  | search key value =>
    unfold TreeCall.answer
    rw [ends_bind]
    refine (search_refines_map hl hcr h hc).mono (fun _ t' hpost => ?_) fun e t' herr => ?_
    · obtain ⟨hholds, kv, hsome, hie⟩ := hpost
      rw [ends_bind]
      refine hie.mono (fun ie t'' hpost => ?_) fun _ _ => False.elim
      obtain ⟨hkv, rfl⟩ := hpost
      simp only [mapStep, hsome, hkv]
      exact ⟨rfl, hholds⟩
    · obtain ⟨rfl, hnone, hholds⟩ := herr
      simp only [mapStep, hnone]
      exact .inr ⟨trivial, hholds⟩
  | remove key =>
    unfold TreeCall.answer TreeCall.run
    rw [ends_bind]
    refine (remove_refines_map hl hcr h hc).mono (fun _ t' hpost => ?_) fun e t' herr => ?_
    · obtain ⟨⟨kv, hsome⟩, hholds⟩ := hpost
      simp only [mapStep, hsome]
      exact ⟨rfl, hholds⟩
    · refine herr.imp_right ?_
      rintro ⟨rfl, hnone, hholds⟩
      simp only [mapStep, hnone]
      exact ⟨trivial, hholds⟩
  | update key value => exact hc.elim

end Calls

/-! ## Runs -/

/-- Unless a call fails because the tree is too deep, a run of a table gives the answers of the map, and ends in a
well-formed tree that holds what the map does. -/
theorem treeRun_refines (hl : LawfulEnv env m False) (hcr : env.cr.Ranked) (calls : List TreeCall)
    (hcalls : ∀ c ∈ calls, c.Sized env.cr size) {f : KeyMap} (h : HoldsKeys env.cr m size t f)
    (hdepth : .error .reparent ∉ (treeRun env calls t).1) :
    (treeRun env calls t).1 = (mapRun env.cr calls f).1 ∧
      HoldsKeys env.cr m size (treeRun env calls t).2 (mapRun env.cr calls f).2 := by
  induction calls generalizing t f with
  | nil => exact ⟨rfl, h⟩
  | cons c calls ih =>
    obtain ⟨hc, hcalls⟩ := List.forall_mem_cons.mp hcalls
    have hstep := answer_refines hl hcr h hc
    unfold treeRun at hdepth ⊢
    unfold mapRun
    unfold Ends at hstep
    cases hanswer : c.answer env t with
    | ok a t' =>
      rw [hanswer] at hstep hdepth
      obtain ⟨hsame, hholds⟩ := hstep
      obtain ⟨-, hrest⟩ := not_or.mp (List.mem_cons.not.mp hdepth)
      obtain ⟨hanswers, hlast⟩ := ih hcalls hholds hrest
      dsimp only
      rw [hsame, hanswers]
      exact ⟨rfl, hlast⟩
    | error e t' =>
      rw [hanswer] at hstep hdepth
      obtain ⟨hne, hrest⟩ := not_or.mp (List.mem_cons.not.mp hdepth)
      obtain rfl | ⟨hsame, hholds⟩ := hstep
      · exact absurd rfl hne
      · obtain ⟨hanswers, hlast⟩ := ih hcalls hholds hrest
        dsimp only
        rw [hsame, hanswers]
        exact ⟨rfl, hlast⟩

theorem rootState_keys (cr : CollateRule) (size : ℕ) :
    HoldsKeys cr countingModel size (rootState []) (mapOf cr []) := by
  refine ⟨0, rootTree [], ⟨rootState_holds [], rootTree_ok ⟨by decide, by simp⟩, by decide, ?_, ?_⟩, ?_, ?_⟩
  · rw [rootTree_elems]
    simp
  · rw [rootTree_elems]
    exact List.Pairwise.nil
  · rw [rootTree_elems]
    simp
  · rw [rootTree_elems]

/-- Three insertions, one of a key that is there, and a search, a removal and a search. -/
def shortRun : List TreeCall :=
  [.insert [1] [10], .insert [2] [20], .insert [0, 1] [], .search [1] [], .remove [1], .search [1] []]

/-- A short run on an empty table. -/
theorem treeRun_refines_short :
    (treeRun (countingEnv .binary) shortRun (rootState [])).1 = (mapRun .binary shortRun (mapOf .binary [])).1 ∧
      HoldsKeys .binary countingModel 2 (treeRun (countingEnv .binary) shortRun (rootState [])).2
        (mapRun .binary shortRun (mapOf .binary [])).2 := by
  refine treeRun_refines (countingEnv_lawful .binary) (.inl rfl) shortRun ?_ (rootState_keys .binary 2) ?_
  · have hkey : ∀ k : UInt8, Collatable .binary [k] := fun k => ⟨by simp, by simp⟩
    simp only [shortRun, List.forall_mem_cons, List.not_mem_nil, false_imp_iff, implies_true, and_true]
    refine ⟨⟨?_, hkey 1, rfl⟩, ⟨?_, hkey 2, rfl⟩, ⟨?_, ⟨by simp, by simp⟩, rfl⟩, hkey 1, hkey 1, hkey 1⟩
    all_goals exact ⟨by decide, by decide, by decide⟩
  · have hanswers : (treeRun (countingEnv .binary) shortRun (rootState [])).1 =
        [.ok none, .ok none, .error .keyExist, .ok (some ([1], [10])), .ok none, .error .keyNotFound] := rfl
    rw [hanswers]
    simp

end IndexFs.Tree
