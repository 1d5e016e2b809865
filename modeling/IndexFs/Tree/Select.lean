import IndexFs.Tree.WalkAll

/-!
# The entry with a number

`index_get_target_key` of `object_system/ofs_btree.c` (lines 1366–1389) goes to the
first entry of a tree and from entry to entry until it has seen as many as it is asked
for. The number counts down to zero as a `uint64_t`, so a request for entry `0` goes
through `2^64` entries.

Results:

* `targetLoop_spec`: the loop, from any entry on.
* `indexGetTargetKey_selects`: the count that is returned, and where the cursor rests.
-/

namespace IndexFs.Tree

variable {σ : Type}

/-- The `do`–`while` of `index_get_target_key` (lines 1378–1385). -/
def targetLoop (env : TreeEnv σ) : (fuel cnt target : ℕ) → TreeM σ ℕ
  | 0, _, _ => throw .fuel
  | fuel + 1, cnt, target => do
    let target := uint64Sub target 1
    if target = 0 then return cnt + 1
    else
      match ← codeOf (walkTree env {}) with
      | .ok _ => targetLoop env fuel (cnt + 1) target
      | .error _ => return cnt + 1

/-- `index_get_target_key` (lines 1366–1389). -/
def indexGetTargetKey (env : TreeEnv σ) (fuel target : ℕ) : TreeM σ ℕ := do
  match ← codeOf (walkTree env { getFirst := true }) with
  | .ok _ => targetLoop env fuel 0 target
  | .error _ => return 0

variable {m : ContainerModel σ} {t : ObjectTree σ} {H : ℕ} {X : List ℕ} {env : TreeEnv σ} {fails : Prop}
  {n : TNode (H + 1)} {l r : List KeyValue} {kv : KeyValue} {fuel cnt target k : ℕ}

/-- The number of entries that a request stands for. -/
def requested (target : ℕ) : ℕ := if target = 0 then 2 ^ 64 else target

theorem uint64Sub_one (hk : 1 ≤ k) (hmax : k ≤ 2 ^ 64) (htarget : target = k % 2 ^ 64) : uint64Sub target 1 = k - 1 := by
  rw [htarget]
  unfold uint64Sub
  omega

/-- The cursor rests on the entry with the number `k`, counted from one, or the tree has fewer entries and the
cursor is behind the last one. -/
def Selected (m : ContainerModel σ) (n : TNode (H + 1)) (X : List ℕ) (k : ℕ) (t : ObjectTree σ) : Prop :=
  (∃ l kv r, l.length + 1 = k ∧ Rests m t n X l kv r) ∨ n.elems.length < k ∧ AtRootEnd m t n X

theorem targetLoop_spec (hl : LawfulEnv env m fails) (hH : H + 1 ≤ treeMaxDepth) (hrests : Rests m t n X l kv r)
    (hk : 1 ≤ k) (hmax : k ≤ 2 ^ 64) (htarget : target = k % 2 ^ 64) (hfuel : r.length < fuel) :
    Ends (targetLoop env fuel cnt target) t
      (fun c t' => c = cnt + min k (r.length + 1) ∧ Selected m n X (l.length + k) t') (fun _ _ => False) := by
  induction fuel generalizing t l kv r cnt target k with
  | zero => exact absurd hfuel (Nat.not_lt_zero _)
  | succ fuel ih =>
    unfold targetLoop
    rw [uint64Sub_one hk hmax htarget]
    dsimp only
    split_ifs with hlast
    · rw [ends_pure]
      constructor
      · omega
      · exact .inl ⟨l, kv, r, by omega, hrests⟩
    · refine Ends.bind (Ends.codeOf ((walkTree_next hl hH hrests).mono (fun _ t' hpost => ?_) fun e t' herr => ?_))
      · obtain ⟨kv', r', rfl, hrests'⟩ := hpost
        rw [List.length_cons] at hfuel ⊢
        refine (ih hrests' (k := k - 1) (by omega) (by omega) ?_ (by omega)).mono (fun c t'' hpost => ?_) fun _ _ h => h
        · rw [Nat.mod_eq_of_lt (by omega)]
        · obtain ⟨rfl, hselected⟩ := hpost
          constructor
          · omega
          · rw [List.length_append, List.length_singleton] at hselected
            rwa [show l.length + k = l.length + 1 + (k - 1) by omega]
      · obtain ⟨rfl, rfl, hend⟩ := herr
        refine ⟨rfl, ?_⟩
        rw [ends_pure]
        constructor
        · rw [List.length_nil]
          omega
        · refine .inr ⟨?_, hend⟩
          rw [hrests.elems, List.length_append, List.length_singleton]
          omega

/-- `index_get_target_key` returns the smaller of the number and the number of entries. If there are enough it
leaves the cursor on the entry with that number in the order of the keys, else behind the last entry. -/
theorem indexGetTargetKey_selects (hl : LawfulEnv env m fails) (hH : H + 1 ≤ treeMaxDepth) (ht : HoldsTree m t n)
    (htarget : target < 2 ^ 64) (hfuel : n.elems.length < fuel) :
    Ends (indexGetTargetKey env fuel target) t
      (fun c t' => c = min (requested target) n.elems.length ∧ Selected m n [] (requested target) t')
      (fun _ _ => False) := by
  have hreq : 1 ≤ requested target ∧ requested target ≤ 2 ^ 64 ∧ target = requested target % 2 ^ 64 := by
    unfold requested
    split_ifs <;> omega
  obtain ⟨hpos, hmax, hmod⟩ := hreq
  unfold indexGetTargetKey
  refine Ends.bind (Ends.codeOf ((walkTree_first hl hH ht).mono (fun _ t' hpost => ?_) fun e t' herr => ?_))
  · obtain ⟨kv, r, helems, hrests⟩ := hpost
    rw [helems, List.length_cons] at hfuel ⊢
    refine (targetLoop_spec hl hH hrests hpos hmax hmod (by omega)).mono (fun c t'' hpost => ?_) fun _ _ h => h
    rw [List.length_nil, Nat.zero_add, Nat.zero_add] at hpost
    exact hpost
  · obtain ⟨rfl, hnil, hend⟩ := herr
    refine ⟨rfl, ?_⟩
    rw [hnil, List.length_nil, Nat.min_zero, ends_pure]
    refine ⟨rfl, .inr ⟨?_, hend⟩⟩
    rw [hnil]
    exact hpos

/-- The second of two entries, and the entry with the number zero, which no tree has. -/
theorem indexGetTargetKey_selects_second :
    Ends (indexGetTargetKey (countingEnv .binary) 3 2) (rootState [([1], [10]), ([2], [20])])
      (fun c t' => c = min (requested 2) 2 ∧
        Selected countingModel (rootTree [([1], [10]), ([2], [20])]) [] (requested 2) t') (fun _ _ => False) ∧
    Ends (indexGetTargetKey (countingEnv .binary) 3 0) (rootState [([1], [10]), ([2], [20])])
      (fun c t' => c = min (requested 0) 2 ∧
        Selected countingModel (rootTree [([1], [10]), ([2], [20])]) [] (requested 0) t') (fun _ _ => False) := by
  have hlength : (rootTree [([1], [10]), ([2], [20])]).elems.length = 2 := by
    rw [rootTree_elems]
    rfl
  have hfuel : (rootTree [([1], [10]), ([2], [20])]).elems.length < 3 := by omega
  have hheight : 0 + 1 ≤ treeMaxDepth := by decide
  have htwo : 2 < 2 ^ 64 := by norm_num
  have hzero : 0 < 2 ^ 64 := by norm_num
  have hsecond := indexGetTargetKey_selects (countingEnv_lawful .binary) hheight (rootState_holds _) htwo hfuel
  have hzeroth := indexGetTargetKey_selects (countingEnv_lawful .binary) hheight (rootState_holds _) hzero hfuel
  rw [hlength] at hsecond hzeroth
  exact ⟨hsecond, hzeroth⟩

end IndexFs.Tree
