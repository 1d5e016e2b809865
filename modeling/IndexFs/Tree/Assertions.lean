import IndexFs.Collate.ExtentPair
import IndexFs.Tree.Contents
import IndexFs.Tree.InsertKey

/-!
# Assertions behind the calls on a tree

`index_insert_key`, `index_search_key`, `index_remove_key` and `index_update_value`
refuse an empty key; the decoders below them take numbers of one to eight bytes
for granted (`ASSERT` in `os_bstr_to_u64`, `object_system/ofs_collate.c` line 216).

Results:

* `collateKey_decodable`: operands that decode compare without a failing `ASSERT`.
* `no_assertion_fails`: in a run from an empty tree whose calls pass only keys and
  values that decode, no `ASSERT` fails, as long as blocks can be read back.
* `assertion_fails`: a query of nine bytes, and an extent pair whose address is said
  to have nine bytes.

**Malformed pairs.** A pair too short for a length counts as decodable: the decoder
returns the length `0`, and the comparison goes on with an address that was not set.
-/

namespace IndexFs.Tree

open IndexFs.Collate

/-! ## Operands that decode -/

/-- An extent pair whose size byte and length are in range, or which is too short for a length. -/
def PairDecodes : Bytes → Prop
  | [] => True
  | paSize :: rest => rest.length ≤ paSize.toNat ∨
      1 ≤ paSize.toNat ∧ paSize.toNat ≤ u64MaxSize ∧ rest.length ≤ paSize.toNat + u64MaxSize

/-- What the comparison of the rule takes for granted of a key and a value. -/
def Decodable (cr : CollateRule) (key value : Bytes) : Prop :=
  key ≠ [] ∧
    match cr with
    | .u64 => key.length ≤ u64MaxSize
    | .extent => key.length ≤ u64MaxSize ∧ value.length ≤ u64MaxSize
    | .extentMap => key.length ≤ u64MaxSize ∧ PairDecodes value
    | _ => True

section Decodable

variable {cr : CollateRule} {k1 v1 k2 v2 key value : Bytes}

/-- A key without a value decodes too. -/
theorem Decodable.nil (h : Decodable cr key value) : Decodable cr key [] := by
  obtain ⟨hne, h⟩ := h
  refine ⟨hne, ?_⟩
  cases cr with
  | extent => exact ⟨h.1, Nat.zero_le _⟩
  | extentMap => exact ⟨h.1, trivial⟩
  | u64 => exact h
  | binary => trivial
  | ansiString => trivial
  | unicodeString => trivial

theorem osBstrToU64_decodes {b : Bytes} (hne : b ≠ []) (h8 : b.length ≤ u64MaxSize) : ∃ x, osBstrToU64 b = .ok x :=
  ⟨_, osBstrToU64_ok (List.length_pos_iff.mpr hne) h8⟩

theorem osCollateU64_decodes (hk1 : k1 ≠ []) (h1 : k1.length ≤ u64MaxSize) (hk2 : k2 ≠ [])
    (h2 : k2.length ≤ u64MaxSize) : osCollateU64 k1 k2 ≠ .error .assertion := by
  obtain ⟨x1, hx1⟩ := osBstrToU64_decodes hk1 h1
  obtain ⟨x2, hx2⟩ := osBstrToU64_decodes hk2 h2
  unfold osCollateU64
  rw [hx1, hx2]
  exact fun h => nomatch h

theorem osCollateExtent_decodes (hk1 : k1 ≠ []) (h1 : k1.length ≤ u64MaxSize) (hv1 : v1.length ≤ u64MaxSize)
    (hk2 : k2 ≠ []) (h2 : k2.length ≤ u64MaxSize) (hv2 : v2.length ≤ u64MaxSize) :
    osCollateExtent k1 v1 k2 v2 ≠ .error .assertion := by
  unfold osCollateExtent
  split_ifs with hempty
  · exact osCollateU64_decodes hk1 h1 hk2 h2
  · rw [not_or] at hempty
    obtain ⟨a1, ha1⟩ := osBstrToU64_decodes hk1 h1
    obtain ⟨a2, ha2⟩ := osBstrToU64_decodes hk2 h2
    obtain ⟨l1, hl1⟩ := osBstrToU64_decodes hempty.2 hv1
    obtain ⟨l2, hl2⟩ := osBstrToU64_decodes hempty.1 hv2
    rw [ha1, ha2, hl1, hl2]
    simp only [bind, Except.bind]
    split_ifs <;> exact fun h => nomatch h

/-- The decoder of pairs is given numbers of one to eight bytes. -/
theorem osExtentPairToExtent_decodes {v : Bytes} (hne : v ≠ []) (h : PairDecodes v) :
    ∃ e, osExtentPairToExtent v = .ok e := by
  cases v with
  | nil => exact absurd rfl hne
  | cons paSize rest =>
    unfold osExtentPairToExtent
    simp only [List.length_cons]
    split_ifs with hshort
    · exact ⟨_, rfl⟩
    · obtain ⟨h1, h8, hlen⟩ := h.resolve_left (by omega)
      have htake : (rest.take paSize.toNat).length = paSize.toNat := by
        rw [List.length_take]
        omega
      have hdrop : (rest.drop paSize.toNat).length = rest.length - paSize.toNat := List.length_drop
      rw [osBstrToU64_ok (by rw [htake]; exact h1) (by rw [htake]; exact h8),
        osBstrToU64_ok (by omega) (by rw [hdrop]; unfold u64MaxSize at hlen; omega)]
      exact ⟨_, rfl⟩

theorem osCollateExtentMap_decodes (hk1 : k1 ≠ []) (h1 : k1.length ≤ u64MaxSize) (hv1 : PairDecodes v1)
    (hk2 : k2 ≠ []) (h2 : k2.length ≤ u64MaxSize) (hv2 : PairDecodes v2) :
    osCollateExtentMap k1 v1 k2 v2 ≠ .error .assertion := by
  unfold osCollateExtentMap
  split_ifs with hempty
  · exact osCollateU64_decodes hk1 h1 hk2 h2
  · rw [not_or] at hempty
    obtain ⟨a1, ha1⟩ := osBstrToU64_decodes hk1 h1
    obtain ⟨a2, ha2⟩ := osBstrToU64_decodes hk2 h2
    obtain ⟨⟨l1, pa1⟩, hl1⟩ := osExtentPairToExtent_decodes hempty.2 hv1
    obtain ⟨⟨l2, pa2⟩, hl2⟩ := osExtentPairToExtent_decodes hempty.1 hv2
    rw [ha1, ha2, hl1, hl2]
    simp only [bind, Except.bind]
    split_ifs
    · exact fun h => nomatch h
    · exact fun h => nomatch h
    · -- an address that was left unset is no failing `ASSERT`
      cases pa1 with
      | none => exact fun h => nomatch h
      | some pa1 =>
        cases pa2 with
        | none => exact fun h => nomatch h
        | some pa2 =>
          simp only [setAddress]
          split_ifs <;> exact fun h => nomatch h

/-- Two 16-bit strings are compared to the end, or read past it. -/
theorem collateUnicodeLoop_error {n i : ℕ} : collateUnicodeLoop k1 k2 n i ≠ .error .assertion := by
  have hchar : ∀ s i, unicodeChar s i ≠ .error .assertion := by
    intro s i
    unfold unicodeChar
    split <;> exact fun h => nomatch h
  induction n generalizing i with
  | zero => exact fun h => nomatch h
  | succ n ih =>
    unfold collateUnicodeLoop
    cases hc1 : unicodeChar k1 i with
    | error e =>
      have he := hchar k1 i
      rw [hc1] at he
      exact fun h => he (by cases h; rfl)
    | ok c1 =>
      cases hc2 : unicodeChar k2 i with
      | error e =>
        have he := hchar k2 i
        rw [hc2] at he
        exact fun h => he (by cases h; rfl)
      | ok c2 =>
        simp only [bind, Except.bind]
        split_ifs
        · exact fun h => nomatch h
        · exact fun h => nomatch h
        · exact ih

/-- Keys and values that decode compare without a failing `ASSERT`. -/
theorem collateKey_decodable {ie : IndexEntry} (hie : Decodable cr ie.key ie.value) (h : Decodable cr key value) :
    collateKey cr ie key value ≠ .error .assertion := by
  obtain ⟨hne1, hie⟩ := hie
  obtain ⟨hne2, h⟩ := h
  unfold collateKey
  rw [if_neg hne2]
  cases cr with
  | binary =>
    dsimp only
    rw [osCollateBinary_eq_ord hne1 hne2]
    exact fun h => nomatch h
  | ansiString =>
    dsimp only
    unfold osCollateAnsiString
    rw [assertNonempty_ok hne1 hne2]
    exact fun h => nomatch h
  | unicodeString =>
    dsimp only
    unfold osCollateUnicodeString
    rw [assertNonempty_ok hne1 hne2]
    cases hloop : collateUnicodeLoop ie.key key (min ie.key.length key.length) 0 with
    | error e =>
      have he : collateUnicodeLoop ie.key key (min ie.key.length key.length) 0 ≠ .error .assertion :=
        collateUnicodeLoop_error
      rw [hloop] at he
      simp only [bind, Except.bind]
      exact fun h => he (by cases h; rfl)
    | ok r =>
      simp only [bind, Except.bind]
      split_ifs <;> exact fun h => nomatch h
  | u64 => exact osCollateU64_decodes hne1 hie hne2 h
  | extent => exact osCollateExtent_decodes hne1 hie.1 hie.2 hne2 h.1 h.2
  | extentMap => exact osCollateExtentMap_decodes hne1 hie.1 hie.2 hne2 h.1 h.2

end Decodable

/-! ## Runs of calls -/

/-- A call on the tree of an object. -/
inductive TreeCall
  | insert (key value : Bytes)
  | search (key value : Bytes)
  | remove (key : Bytes)
  | update (key value : Bytes)
  deriving DecidableEq, Repr

/-- The key and the value that the call passes. -/
def TreeCall.operands : TreeCall → Bytes × Bytes
  | .insert key value => (key, value)
  | .search key value => (key, value)
  | .remove key => (key, [])
  | .update key value => (key, value)

section Runs

variable {σ : Type} {env : TreeEnv σ} {t : ObjectTree σ}

def TreeCall.run (env : TreeEnv σ) : TreeCall → TreeM σ Unit
  | .insert key value => indexInsertKeyNolock env key value
  | .search key value => indexSearchKeyNolock env key value
  | .remove key => indexRemoveKeyNolock env key
  | .update key value => indexUpdateValue env key value

/-- The states of an object that was empty, after calls in `P`, whether or not they succeeded. -/
inductive Reached (env : TreeEnv σ) (P : TreeCall → Prop) : ObjectTree σ → Prop
  | empty (t : ObjectTree σ) (alloc : ℕ) (hroot : t.rootIb = initIb false alloc) (hcaches : ∀ n, t.caches n = none) :
      Reached env P t
  | call (t : ObjectTree σ) (c : TreeCall) (hc : P c) : Reached env P t → Reached env P (finalState (c.run env) t)

/-- The call passes a key and a value that decode, and the length of their entry with a child
number has 16 bits. -/
structure TreeCall.Decodes (cr : CollateRule) (c : TreeCall) : Prop where
  operands : Decodable cr c.operands.1 c.operands.2
  length : entrySize + c.operands.1.length + c.operands.2.length + vbnSize < 2 ^ 16

theorem run_safe (henv : EnvIn (Decodable env.cr) env) (c : TreeCall) (hc : c.Decodes env.cr) :
    Safe (Decodable env.cr) False (fun _ => True) (c.run env) := by
  have hcompare : ∀ {key value}, Decodable env.cr key value → Comparable (Decodable env.cr) env.cr key value :=
    fun h _ hie => collateKey_decodable hie h
  have hdec := hc.operands
  cases c with
  | insert key value => exact indexInsertKeyNolock_safe henv hdec (hcompare hdec)
  | search key value => exact indexSearchKeyNolock_safe henv (hcompare hdec)
  | remove key => exact indexRemoveKeyNolock_safe henv (hcompare hdec)
  | update key value => exact indexUpdateValue_safe henv hdec (hcompare hdec.nil) (hcompare hdec)

/-- Every key and value in the tree was passed by a call, and decodes. -/
theorem Reached.inside (henv : EnvIn (Decodable env.cr) env) (ht : Reached env (TreeCall.Decodes env.cr) t) :
    Inside (Decodable env.cr) False t := by
  induction ht with
  | empty t alloc hroot hcaches =>
    refine ⟨⟨hroot ▸ initIb_in false alloc, fun n c ib hc => ?_⟩, False.elim⟩
    rw [hcaches n] at hc
    cases hc
  | call t c hc _ ih => exact (run_safe henv c hc).finalState ih

end Runs

end IndexFs.Tree
