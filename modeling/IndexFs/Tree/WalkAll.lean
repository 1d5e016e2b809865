import IndexFs.Tree.InsertKey
import IndexFs.Tree.Walk

/-!
# Visiting every entry

`index_get_total_key` and `index_walk_all` of `object_system/ofs_btree.c` (lines
1345–1363 and 1391–1431): loops around `walk_tree`. The loops have no bound of their
own, so they take one (`fuel`). Of the flags that `index_walk_all` hands on to
`walk_tree` only `INDEX_REMOVE_BLOCK` does anything; its one caller passes none.

Results:

* `walkLoop_spec`: the loop calls back on the remaining entries in turn.
* `walk_tree_traverses`: single moves and whole traversals, for a tree of any shape.
-/

namespace IndexFs.Tree

open IndexFs.Multiway IndexFs.Collate

variable {σ π : Type}

/-! ## Model -/

section Model

variable (env : TreeEnv σ)

/-- The `do`–`while` of `index_get_total_key` (lines 1357–1360). -/
def countLoop : (fuel cnt : ℕ) → TreeM σ ℕ
  | 0, _ => throw .fuel
  | fuel + 1, cnt => do
    match ← codeOf (walkTree env {}) with
    | .ok _ => countLoop fuel (cnt + 1)
    | .error _ => return cnt + 1

/-- `index_get_total_key` (lines 1345–1364). -/
def indexGetTotalKey (fuel : ℕ) : TreeM σ ℕ := do
  match ← codeOf (walkTree env { getFirst := true }) with
  | .ok _ => countLoop env fuel 0
  | .error _ => return 0

/-- The `do`–`while` of `index_walk_all` (lines 1412–1421). The callback gets the entry
under the cursor and works on `para`. -/
def walkLoop (flags : WalkFlags) (cb : IndexEntry → EStateM ErrorCode π Unit) :
    (fuel : ℕ) → EStateM ErrorCode (ObjectTree σ × π) Unit
  | 0 => throw .fuel
  | fuel + 1 => do
    let ie ← zoom Prod.fst (fun t s => (t, s.2)) currentIe
    zoom Prod.snd (fun p s => (s.1, p)) (cb ie)
    match ← codeOf (zoom Prod.fst (fun t s => (t, s.2)) (walkTree env flags)) with
    | .ok _ => walkLoop flags cb fuel
    | .error _ => return ()

/-- `index_walk_all` (lines 1391–1431). -/
def indexWalkAll (reverse removeBlock : Bool) (cb : IndexEntry → EStateM ErrorCode π Unit) (fuel : ℕ) :
    EStateM ErrorCode (ObjectTree σ × π) Unit := do
  let ifFlag : WalkFlags := { getFirst := !reverse, getLast := reverse, removeBlock }
  let whileFlag : WalkFlags := { getPrev := reverse, removeBlock }
  match ← codeOf (zoom Prod.fst (fun t s => (t, s.2)) (walkTree env ifFlag)) with
  | .ok _ => walkLoop env whileFlag cb fuel
  | .error _ => return ()

end Model

/-! ## Callbacks -/

/-- Call back on some entries in turn, up to the first callback that fails. -/
def callAll (cb : IndexEntry → EStateM ErrorCode π Unit) : List IndexEntry → EStateM ErrorCode π Unit
  | [] => pure ()
  | ie :: l => do
    cb ie
    callAll cb l

/-- `ies` are entries with the keys and values `l`. -/
def EntriesOf (ies : List IndexEntry) (l : List KeyValue) : Prop :=
  ies.map (fun ie => (ie.key, ie.value)) = l

theorem exists_entriesOf (l : List KeyValue) : ∃ ies, EntriesOf ies l :=
  ⟨l.map (mkIe false 0 0), by
    unfold EntriesOf
    rw [List.map_map]
    exact List.map_id l⟩

variable {m : ContainerModel σ} {t t' : ObjectTree σ} {H h : ℕ} {X : List ℕ} {env : TreeEnv σ}
  {fails : Prop} {n : TNode (H + 1)} {flags : WalkFlags}

/-- `S t (kv :: L)`: the cursor is on `kv`, and `walk_tree` with the flags goes through `L`. -/
structure Walker (env : TreeEnv σ) (m : ContainerModel σ) (n : TNode (H + 1)) (flags : WalkFlags)
    (S : ObjectTree σ → List KeyValue → Prop) : Prop where
  current : ∀ {t kv L} {Q : IndexEntry → ObjectTree σ → Prop} {F : ErrorCode → ObjectTree σ → Prop},
    S t (kv :: L) → (∀ ie : IndexEntry, (ie.key, ie.value) = kv → Q ie t) →
    Ends (currentIe : TreeM σ IndexEntry) t Q F
  step : ∀ {t kv L}, S t (kv :: L) → Ends (walkTree env flags) t (fun _ t' => L ≠ [] ∧ S t' L)
    (fun e t' => e = .root ∧ L = [] ∧ HoldsTree m t' n)
  holds : ∀ {t kv L}, S t (kv :: L) → HoldsTree m t n

variable {S : ObjectTree σ → List KeyValue → Prop}

/-- Forwards the entries behind the cursor are left. -/
theorem walker_next (hl : LawfulEnv env m fails) (hH : H + 1 ≤ treeMaxDepth) :
    Walker env m n {} fun t L => ∃ l kv r, L = kv :: r ∧ Rests m t n [] l kv r where
  current := by
    rintro t kv L Q F ⟨l, kv, r, hL, hrests⟩ hQ
    cases hL
    exact hrests.currentIe fun ie hkey hvalue _ => hQ ie (by rw [hkey, hvalue])
  step := by
    rintro t kv L ⟨l, kv, r, hL, hrests⟩
    cases hL
    refine (walkTree_next hl hH hrests).mono (fun _ t' hpost => ?_) fun e t' hpost => ?_
    · obtain ⟨kv', r', rfl, hrests'⟩ := hpost
      exact ⟨by simp, l ++ [kv], kv', r', rfl, hrests'⟩
    · exact ⟨hpost.1, hpost.2.1, hpost.2.2.holdsTree⟩
  holds := by
    rintro t kv L ⟨l, kv, r, -, hrests⟩
    exact hrests.holdsTree

/-- Backwards those before it are, the nearest first. -/
theorem walker_prev (hl : LawfulEnv env m fails) (hH : H + 1 ≤ treeMaxDepth) :
    Walker env m n { getPrev := true } fun t L =>
      ∃ l kv r, L = kv :: l.reverse ∧ Rests m t n [] l kv r where
  current := by
    rintro t kv L Q F ⟨l, kv, r, hL, hrests⟩ hQ
    cases hL
    exact hrests.currentIe fun ie hkey hvalue _ => hQ ie (by rw [hkey, hvalue])
  step := by
    rintro t kv L ⟨l, kv, r, hL, hrests⟩
    cases hL
    refine (walkTree_prev hl hH hrests).mono (fun _ t' hpost => ?_) fun e t' hpost => ?_
    · obtain ⟨l', kv', rfl, hrests'⟩ := hpost
      exact ⟨by simp, l', kv', kv :: r, by simp, hrests'⟩
    · exact ⟨hpost.1, by simp [hpost.2.1], hpost.2.2⟩
  holds := by
    rintro t kv L ⟨l, kv, r, -, hrests⟩
    exact hrests.holdsTree

/-! ## The loops -/

/-- The loop calls back on the entry under the cursor and the remaining ones in turn. -/
theorem walkLoop_spec (hw : Walker env m n flags S) (cb : IndexEntry → EStateM ErrorCode π Unit)
    {L : List KeyValue} {kv : KeyValue} {p : π} (hS : S t (kv :: L)) {fuel : ℕ} (hfuel : L.length < fuel) :
    Ends (walkLoop env flags cb fuel) (t, p)
      (fun _ s => ∃ ies, EntriesOf ies (kv :: L) ∧ callAll cb ies p = .ok () s.2 ∧ HoldsTree m s.1 n)
      (fun e s => ∃ ies, EntriesOf ies (kv :: L) ∧ callAll cb ies p = .error e s.2 ∧
        HoldsTree m s.1 n) := by
  induction L generalizing t kv p fuel with
  | nil =>
    obtain ⟨fuel, rfl⟩ : ∃ f, fuel = f + 1 := ⟨fuel - 1, by omega⟩
    unfold walkLoop
    refine Ends.bind (ends_zoom.mpr (hw.current hS fun ie hie => Ends.bind (ends_zoom.mpr ?_)))
    have hies : EntriesOf [ie] [kv] := by simp [EntriesOf, hie]
    cases hcb : cb ie p with
    | error e p' =>
      rw [ends_of_error hcb]
      exact ⟨[ie], hies, by simp [callAll, bind, EStateM.bind, hcb], hw.holds hS⟩
    | ok u p' =>
      rw [ends_of_ok hcb]
      refine Ends.bind (Ends.codeOf (ends_zoom.mpr ((hw.step hS).mono ?_ ?_)))
      · rintro _ t' ⟨hne, -⟩
        exact absurd rfl hne
      · rintro e t' ⟨rfl, -, ht⟩
        exact ⟨rfl, [ie], hies, by simp [callAll, bind, EStateM.bind, hcb, pure, EStateM.pure], ht⟩
  | cons kv' L ih =>
    obtain ⟨fuel, rfl⟩ : ∃ f, fuel = f + 1 := ⟨fuel - 1, by omega⟩
    unfold walkLoop
    refine Ends.bind (ends_zoom.mpr (hw.current hS fun ie hie => Ends.bind (ends_zoom.mpr ?_)))
    cases hcb : cb ie p with
    | error e p' =>
      obtain ⟨ies, hies⟩ := exists_entriesOf (kv' :: L)
      rw [ends_of_error hcb]
      exact ⟨ie :: ies, by simpa [EntriesOf, hie] using hies,
        by simp [callAll, bind, EStateM.bind, hcb], hw.holds hS⟩
    | ok u p' =>
      rw [ends_of_ok hcb]
      refine Ends.bind (Ends.codeOf (ends_zoom.mpr ((hw.step hS).mono ?_ ?_)))
      · rintro _ t' ⟨-, hS'⟩
        have hcons : ∀ {ies r}, callAll cb ies p' = r → callAll cb (ie :: ies) p = r := fun hr => by
          rw [← hr]
          simp [callAll, bind, EStateM.bind, hcb]
        refine (ih hS' (by simpa using hfuel)).mono ?_ ?_
        · rintro _ s ⟨ies, hies, hcall, ht⟩
          exact ⟨ie :: ies, by simpa [EntriesOf, hie] using hies, hcons hcall, ht⟩
        · rintro e s ⟨ies, hies, hcall, ht⟩
          exact ⟨ie :: ies, by simpa [EntriesOf, hie] using hies, hcons hcall, ht⟩
      · rintro e t' ⟨-, hnil, -⟩
        exact absurd hnil (by simp)

/-- Counting adds the number of the remaining entries and the one under the cursor. -/
theorem countLoop_spec (hw : Walker env m n {} S) {L : List KeyValue} {kv : KeyValue}
    (hS : S t (kv :: L)) {fuel cnt : ℕ} (hfuel : L.length < fuel) :
    Ends (countLoop env fuel cnt) t
      (fun r t' => r = cnt + (kv :: L).length ∧ HoldsTree m t' n) (fun _ _ => False) := by
  induction L generalizing t kv fuel cnt with
  | nil =>
    obtain ⟨fuel, rfl⟩ : ∃ f, fuel = f + 1 := ⟨fuel - 1, by omega⟩
    unfold countLoop
    refine Ends.bind (Ends.codeOf ((hw.step hS).mono ?_ ?_))
    · rintro _ t' ⟨hne, -⟩
      exact absurd rfl hne
    · rintro e t' ⟨rfl, -, ht⟩
      exact ⟨rfl, rfl, ht⟩
  | cons kv' L ih =>
    obtain ⟨fuel, rfl⟩ : ∃ f, fuel = f + 1 := ⟨fuel - 1, by omega⟩
    unfold countLoop
    refine Ends.bind (Ends.codeOf ((hw.step hS).mono ?_ ?_))
    · rintro _ t' ⟨-, hS'⟩
      refine (ih hS' (by simpa using hfuel)).mono (fun r t' hpost => ?_) fun _ _ h => h
      obtain ⟨rfl, ht⟩ := hpost
      exact ⟨by simp only [List.length_cons]; omega, ht⟩
    · rintro e t' ⟨-, hnil, -⟩
      exact absurd hnil (by simp)

/-- `index_get_total_key` returns the number of entries. -/
theorem indexGetTotalKey_spec (hl : LawfulEnv env m fails) (hH : H + 1 ≤ treeMaxDepth)
    (ht : HoldsTree m t n) {fuel : ℕ} (hfuel : n.elems.length < fuel) :
    Ends (indexGetTotalKey env fuel) t (fun r t' => r = n.elems.length ∧ HoldsTree m t' n)
      (fun _ _ => False) := by
  unfold indexGetTotalKey
  refine Ends.bind (Ends.codeOf ((walkTree_first hl hH ht).mono ?_ ?_))
  · rintro _ t' ⟨kv, r, helems, hrests⟩
    rw [helems] at hfuel ⊢
    refine (countLoop_spec (walker_next hl hH) ⟨[], kv, r, rfl, hrests⟩
      (Nat.lt_of_succ_lt hfuel)).mono (fun _ _ hpost => ?_) fun _ _ h => h
    exact ⟨by rw [hpost.1, Nat.zero_add], hpost.2⟩
  · rintro e t' ⟨rfl, hnil, hend⟩
    exact ⟨rfl, by simp [hnil], hend.holdsTree⟩

/-- `index_walk_all` calls back on every entry once, in order or in reverse order. -/
theorem indexWalkAll_spec (hl : LawfulEnv env m fails) (hH : H + 1 ≤ treeMaxDepth)
    (ht : HoldsTree m t n) (reverse : Bool) (cb : IndexEntry → EStateM ErrorCode π Unit) (p : π)
    {fuel : ℕ} (hfuel : n.elems.length < fuel) :
    Ends (indexWalkAll env reverse false cb fuel) (t, p)
      (fun _ s => ∃ ies, EntriesOf ies (if reverse then n.elems.reverse else n.elems) ∧
        callAll cb ies p = .ok () s.2 ∧ HoldsTree m s.1 n)
      (fun e s => ∃ ies, EntriesOf ies (if reverse then n.elems.reverse else n.elems) ∧
        callAll cb ies p = .error e s.2 ∧ HoldsTree m s.1 n) := by
  unfold indexWalkAll
  cases reverse with
  | false =>
    refine Ends.bind (Ends.codeOf (ends_zoom.mpr ((walkTree_first hl hH ht).mono ?_ ?_)))
    · rintro _ t' ⟨kv, r, helems, hrests⟩
      rw [if_neg (by simp), helems]
      rw [helems] at hfuel
      exact walkLoop_spec (walker_next hl hH) cb ⟨[], kv, r, rfl, hrests⟩ (Nat.lt_of_succ_lt hfuel)
    · rintro e t' ⟨rfl, hnil, hend⟩
      exact ⟨rfl, [], by simp [EntriesOf, hnil], rfl, hend.holdsTree⟩
  | true =>
    refine Ends.bind (Ends.codeOf (ends_zoom.mpr ((walkTree_last hl hH ht).mono ?_ ?_)))
    · rintro _ t' ⟨l, kv, helems, hrests⟩
      have hrev : n.elems.reverse = kv :: l.reverse := by simp [helems]
      rw [if_pos rfl, hrev]
      rw [helems] at hfuel
      rw [List.length_append] at hfuel
      exact walkLoop_spec (walker_prev hl hH) cb ⟨l, kv, [], rfl, hrests⟩
        (by rw [List.length_reverse]; exact Nat.lt_of_succ_lt hfuel)
    · rintro e t' ⟨rfl, hnil, hend⟩
      exact ⟨rfl, [], by simp [EntriesOf, hnil], rfl, hend⟩

/-! ## Moves and traversals -/

/-- On a tree of any shape, whose blocks the cursor can follow to the leaves, `walk_tree` moves to the
entry behind or before the cursor, to the first or to the last entry, and returns `-INDEX_ERR_ROOT`
exactly when there is none. So `index_walk_all` calls back on every entry once, in order or in reverse
order, and `index_get_total_key` counts the entries. -/
theorem walk_tree_traverses (hl : LawfulEnv env m fails) (hH : H + 1 ≤ treeMaxDepth) :
    (∀ t X l kv r, Rests m t n X l kv r →
      Ends (walkTree env {}) t
        (fun _ t' => ∃ kv' r', r = kv' :: r' ∧ Rests m t' n X (l ++ [kv]) kv' r')
        (fun e t' => e = .root ∧ r = [] ∧ AtRootEnd m t' n X) ∧
      Ends (walkTree env { getPrev := true }) t
        (fun _ t' => ∃ l' kv', l = l' ++ [kv'] ∧ Rests m t' n X l' kv' (kv :: r))
        (fun e t' => e = .root ∧ l = [] ∧ HoldsTree m t' n)) ∧
    (∀ t X, AtRootEnd m t n X →
      Ends (walkTree env { getPrev := true }) t
        (fun _ t' => ∃ l kv, n.elems = l ++ [kv] ∧ Rests m t' n X l kv [])
        (fun e t' => e = .root ∧ n.elems = [] ∧ HoldsTree m t' n)) ∧
    (∀ t, HoldsTree m t n →
      Ends (walkTree env { getFirst := true }) t
        (fun _ t' => ∃ kv r, n.elems = kv :: r ∧ Rests m t' n [] [] kv r)
        (fun e t' => e = .root ∧ n.elems = [] ∧ AtRootEnd m t' n []) ∧
      Ends (walkTree env { getLast := true }) t
        (fun _ t' => ∃ l kv, n.elems = l ++ [kv] ∧ Rests m t' n [] l kv [])
        (fun e t' => e = .root ∧ n.elems = [] ∧ HoldsTree m t' n)) ∧
    (∀ t fuel, HoldsTree m t n → n.elems.length < fuel →
      (∀ (reverse : Bool) (cb : IndexEntry → EStateM ErrorCode π Unit) (p : π),
        Ends (indexWalkAll env reverse false cb fuel) (t, p)
          (fun _ s => ∃ ies, EntriesOf ies (if reverse then n.elems.reverse else n.elems) ∧
            callAll cb ies p = .ok () s.2 ∧ HoldsTree m s.1 n)
          (fun e s => ∃ ies, EntriesOf ies (if reverse then n.elems.reverse else n.elems) ∧
            callAll cb ies p = .error e s.2 ∧ HoldsTree m s.1 n)) ∧
      Ends (indexGetTotalKey env fuel) t (fun r t' => r = n.elems.length ∧ HoldsTree m t' n)
        (fun _ _ => False)) :=
  ⟨fun _ _ _ _ _ hrests => ⟨walkTree_next hl hH hrests, walkTree_prev hl hH hrests⟩,
    fun _ _ hend => walkTree_prev_rootEnd hl hH hend,
    fun _ ht => ⟨walkTree_first hl hH ht, walkTree_last hl hH ht⟩,
    fun _ _ ht hfuel => ⟨fun reverse cb p => indexWalkAll_spec hl hH ht reverse cb p hfuel,
      indexGetTotalKey_spec hl hH ht hfuel⟩⟩

/-- Counting the entries of a root block, and visiting them backwards. -/
theorem walk_tree_traverses_root :
    Ends (indexGetTotalKey (countingEnv .binary) 3) (rootState [([1], [10]), ([2], [20])])
      (fun r t' => r = 2 ∧ HoldsTree countingModel t' (rootTree [([1], [10]), ([2], [20])]))
      (fun _ _ => False) ∧
    Ends (indexWalkAll (countingEnv .binary) true false (fun ie => modify fun l => l ++ [ie.key]) 3)
      (rootState [([1], [10]), ([2], [20])], [])
      (fun _ s => ∃ ies, EntriesOf ies [([2], [20]), ([1], [10])] ∧
        callAll (fun ie => modify fun l => l ++ [ie.key]) ies [] = .ok () s.2 ∧
        HoldsTree countingModel s.1 (rootTree [([1], [10]), ([2], [20])]))
      (fun e s => ∃ ies, EntriesOf ies [([2], [20]), ([1], [10])] ∧
        callAll (fun ie => modify fun l => l ++ [ie.key]) ies [] = .error e s.2 ∧
        HoldsTree countingModel s.1 (rootTree [([1], [10]), ([2], [20])])) := by
  have htree : (∀ (reverse : Bool) (cb : IndexEntry → EStateM ErrorCode (List Bytes) Unit)
      (p : List Bytes), _) ∧ _ :=
    (walk_tree_traverses (countingEnv_lawful .binary) (by decide)).2.2.2
      (rootState [([1], [10]), ([2], [20])]) 3 (rootState_holds _) (by rw [rootTree_elems]; decide)
  rw [rootTree_elems] at htree
  exact ⟨htree.2, htree.1 true _ []⟩

end IndexFs.Tree
