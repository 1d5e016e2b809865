import IndexFs.Object.Manager

/-!
# The objid tree

The entries of the tree of `id_obj` are pairs of an object number and the number of
its inode block, as the shortest byte strings, ordered by the first. The search takes
the eight bytes of the number; `CR_U64` sees the same number in both.

* `idSearch_spec`, `idInsert_spec`, `idRemove_spec`, `idUpdate_spec`: the operations on
  the encoded entries are those on the pairs.
-/

namespace IndexFs.Object

open IndexFs.Collate

/-- The entry of the objid tree for an object and the number of its inode block. -/
def encodeId (x : ℕ × ℕ) : Bytes × Bytes := (osU64ToBstr x.1, osU64ToBstr x.2)

/-- The entries of the objid tree after an update. -/
def setId (objid vbn : ℕ) (l : List (ℕ × ℕ)) : List (ℕ × ℕ) :=
  l.filter (·.1 < objid) ++ (objid, vbn) :: l.filter (objid < ·.1)

/-- Two 64-bit numbers in each entry, ordered by the first. -/
structure IdsOk (l : List (ℕ × ℕ)) : Prop where
  bound : ∀ x ∈ l, x.1 < 2 ^ 64 ∧ x.2 < 2 ^ 64
  sorted : l.Pairwise fun a b => a.1 < b.1

section Ids

variable {l : List (ℕ × ℕ)} {key : Bytes} {objid vbn : ℕ}

theorem IdsOk.unique (hl : IdsOk l) {v w : ℕ} (hv : (objid, v) ∈ l) (hw : (objid, w) ∈ l) : v = w := by
  have hnodup : (l.map Prod.fst).Nodup := List.pairwise_map.mpr (hl.sorted.imp fun h => h.ne)
  exact congrArg Prod.snd (List.inj_on_of_nodup_map hnodup hv hw rfl)

theorem mem_setId {x : ℕ × ℕ} : x ∈ setId objid vbn l ↔ x = (objid, vbn) ∨ (x ∈ l ∧ x.1 ≠ objid) := by
  unfold setId
  simp only [List.mem_append, List.mem_filter, decide_eq_true_eq, List.mem_cons]
  constructor
  · rintro (⟨hx, hlt⟩ | rfl | ⟨hx, hlt⟩)
    · exact .inr ⟨hx, hlt.ne⟩
    · exact .inl rfl
    · exact .inr ⟨hx, hlt.ne'⟩
  · rintro (rfl | ⟨hx, hne⟩)
    · exact .inr (.inl rfl)
    · rcases lt_or_gt_of_ne hne with h | h
      · exact .inl ⟨hx, h⟩
      · exact .inr (.inr ⟨hx, h⟩)

theorem IdsOk.set (hl : IdsOk l) (hobjid : objid < 2 ^ 64) (hvbn : vbn < 2 ^ 64) :
    IdsOk (setId objid vbn l) where
  bound x hx := by
    rcases mem_setId.mp hx with rfl | ⟨hx, -⟩
    · exact ⟨hobjid, hvbn⟩
    · exact hl.bound x hx
  sorted := by
    unfold setId
    refine List.pairwise_append.mpr ⟨hl.sorted.filter _, List.pairwise_cons.mpr ⟨fun y hy => ?_,
      hl.sorted.filter _⟩, fun x hx y hy => ?_⟩
    · simpa using (List.mem_filter.mp hy).2
    · have hx' : x.1 < objid := by simpa using (List.mem_filter.mp hx).2
      rcases List.mem_cons.mp hy with rfl | hy
      · exact hx'
      · exact hx'.trans (by simpa using (List.mem_filter.mp hy).2)

/-- The search for a key cuts the entries at its place. -/
theorem idSplit_encode (hkey : osBstrToU64 key = .ok objid) (hl : IdsOk l) :
    idSplit key (l.map encodeId) =
      .ok ((l.filter (·.1 < objid)).map encodeId, (l.filter (objid ≤ ·.1)).map encodeId) := by
  induction l with
  | nil => rfl
  | cons x l ih =>
    have hx := hl.bound x (by simp)
    have hsorted := List.pairwise_cons.mp hl.sorted
    have hcollate : idCollate key (encodeId x) = .ok (collateOrd x.1 objid) := by
      unfold idCollate osCollateU64 encodeId
      rw [osBstrToU64_osU64ToBstr hx.1, hkey]
      rfl
    have ih := ih ⟨fun y hy => hl.bound y (List.mem_cons_of_mem _ hy), hsorted.2⟩
    rw [List.map_cons, idSplit, hcollate, ih]
    by_cases hlt : x.1 < objid
    · have hneg : collateOrd x.1 objid < 0 := collateOrd_neg.mpr hlt
      simp [bind, Except.bind, pure, Except.pure, hneg, hlt, not_le.mpr hlt]
    · have hneg : ¬ collateOrd x.1 objid < 0 := fun h => hlt (collateOrd_neg.mp h)
      have hall : ∀ y ∈ l, objid ≤ y.1 := fun y hy => (not_lt.mp hlt).trans (hsorted.1 y hy).le
      have hnone : l.filter (·.1 < objid) = [] := by
        simpa [List.filter_eq_nil_iff] using fun a b hab => hall (a, b) hab
      have hkeep : l.filter (objid ≤ ·.1) = l := by
        simpa [List.filter_eq_self] using fun a b hab => hall (a, b) hab
      simp [bind, Except.bind, pure, Except.pure, hneg, hlt, not_lt.mp hlt, hnone, hkeep]

/-- The eight bytes of a `uint64_t` decode to it. -/
theorem osBstrToU64_u64Bytes (hobjid : objid < 2 ^ 64) : osBstrToU64 (u64Bytes objid) = .ok objid := by
  have hbytes : (u64Bytes objid).map UInt8.toNat = (List.range 8).map (u64Byte objid) := by
    simp [u64Bytes, u64Byte, Function.comp_def]
  unfold osBstrToU64
  rw [if_neg (by simp [u64Bytes]), hbytes, ofDigits_u64Byte, Nat.mod_eq_of_lt]
  exact lt_of_lt_of_eq hobjid (by norm_num)

variable {ct : Container}

theorem idSearch_spec (htree : ct.idTree = l.map encodeId) (hl : IdsOk l)
    (hkey : osBstrToU64 key = .ok objid) :
    Ends (idSearch key) ct (fun value ct' => ct' = ct ∧ ∃ v, (objid, v) ∈ l ∧ value = osU64ToBstr v)
      (fun e ct' => ct' = ct ∧ e = .keyNotFound ∧ ∀ v, (objid, v) ∉ l) := by
  unfold idSearch
  rw [ends_bind, ends_get, htree, idSplit_encode hkey hl, ends_bind, ends_fromExcept_ok]
  have hmem : ∀ x, x ∈ l.filter (objid ≤ ·.1) ↔ x ∈ l ∧ objid ≤ x.1 := fun x => by simp
  have hsub := hl.sorted.filter (objid ≤ ·.1)
  cases hr : l.filter (objid ≤ ·.1) with
  | nil =>
    refine ⟨rfl, rfl, fun v hv => ?_⟩
    have := (hmem _).mpr ⟨hv, le_refl objid⟩
    simp [hr] at this
  | cons x r =>
    rw [hr] at hmem hsub
    obtain ⟨hx, hle⟩ := (hmem x).mp (by simp)
    have hcollate : idCollate key (encodeId x) = .ok (collateOrd x.1 objid) := by
      unfold idCollate osCollateU64 encodeId
      rw [osBstrToU64_osU64ToBstr (hl.bound x hx).1, hkey]
      rfl
    rw [List.map_cons]
    dsimp only
    rw [ends_bind, hcollate, ends_fromExcept_ok, ends_ite]
    refine ⟨fun h0 => ⟨rfl, x.2, ?_, rfl⟩, fun h0 => ⟨rfl, rfl, fun v hv => h0 ?_⟩⟩
    · rw [← collateOrd_eq_zero.mp h0]
      exact hx
    · -- the equal key is not behind the first one that is not smaller
      rcases List.mem_cons.mp ((hmem (objid, v)).mpr ⟨hv, le_refl objid⟩) with rfl | hv'
      · exact collateOrd_eq_zero.mpr rfl
      · exact absurd ((List.pairwise_cons.mp hsub).1 _ hv') (not_lt.mpr hle)

theorem idInsert_spec (htree : ct.idTree = l.map encodeId) (hl : IdsOk l) (hobjid : objid < 2 ^ 64)
    (habsent : ∀ v, (objid, v) ∉ l) :
    Ends (idInsert (osU64ToBstr objid) (osU64ToBstr vbn)) ct
      (fun _ ct' => ct' = { ct with idTree := (setId objid vbn l).map encodeId }) fun _ _ => False := by
  have hkey := osBstrToU64_osU64ToBstr hobjid
  have hbehind : l.filter (objid ≤ ·.1) = l.filter (objid < ·.1) := by
    refine List.filter_congr fun x hx => ?_
    have hne : x.1 ≠ objid := fun h => habsent x.2 (by rw [← h]; exact hx)
    simp only [decide_eq_decide]
    omega
  unfold idInsert
  refine Ends.bind (ends_codeOf.mpr ((idSearch_spec htree hl hkey).mono (fun value ct' h => ?_) fun e ct' h => ?_))
  · obtain ⟨-, v, hv, -⟩ := h
    exact absurd hv (habsent v)
  · obtain ⟨rfl, rfl, -⟩ := h
    rw [if_neg (by simp [ErrorCode.stops])]
    dsimp only
    rw [if_neg (by simp), ends_bind, ends_get, htree, idSplit_encode hkey hl, ends_bind, ends_fromExcept_ok,
      ends_modify, hbehind]
    simp [setId, encodeId]

/-- The entries of the objid tree after a removal. -/
def eraseId (objid : ℕ) (l : List (ℕ × ℕ)) : List (ℕ × ℕ) :=
  l.filter (·.1 < objid) ++ l.filter (objid < ·.1)

theorem mem_of_mem_eraseId {x : ℕ × ℕ} (hx : x ∈ eraseId objid l) : x ∈ l ∧ x.1 ≠ objid := by
  rcases List.mem_append.mp hx with hx | hx
  · obtain ⟨hx, hlt⟩ := List.mem_filter.mp hx
    exact ⟨hx, (by simpa using hlt : x.1 < objid).ne⟩
  · obtain ⟨hx, hlt⟩ := List.mem_filter.mp hx
    exact ⟨hx, (by simpa using hlt : objid < x.1).ne'⟩

theorem IdsOk.erase (hl : IdsOk l) : IdsOk (eraseId objid l) where
  bound x hx := hl.bound x (mem_of_mem_eraseId hx).1
  sorted := by
    refine List.pairwise_append.mpr ⟨hl.sorted.filter _, hl.sorted.filter _, fun x hx y hy => ?_⟩
    have hx' : x.1 < objid := by simpa using (List.mem_filter.mp hx).2
    exact hx'.trans (by simpa using (List.mem_filter.mp hy).2)

theorem setId_eraseId : setId objid vbn (eraseId objid l) = setId objid vbn l := by
  have hleft : (l.filter (objid < ·.1)).filter (·.1 < objid) = [] := by
    refine List.filter_eq_nil_iff.mpr fun x hx => ?_
    have hlt := (List.mem_filter.mp hx).2
    simp only [decide_eq_true_eq] at hlt ⊢
    omega
  have hright : (l.filter (·.1 < objid)).filter (objid < ·.1) = [] := by
    refine List.filter_eq_nil_iff.mpr fun x hx => ?_
    have hlt := (List.mem_filter.mp hx).2
    simp only [decide_eq_true_eq] at hlt ⊢
    omega
  unfold setId eraseId
  rw [List.filter_append, List.filter_append, hleft, hright, List.append_nil, List.nil_append,
    List.filter_filter, List.filter_filter]
  simp only [Bool.and_self]

/-- The entry of an object is the first one that is not smaller. -/
theorem filter_le_of_mem {v : ℕ} (hsorted : l.Pairwise fun a b => a.1 < b.1) (hv : (objid, v) ∈ l) :
    l.filter (objid ≤ ·.1) = (objid, v) :: l.filter (objid < ·.1) := by
  induction l with
  | nil => simp at hv
  | cons x l ih =>
    obtain ⟨hx, hsorted⟩ := List.pairwise_cons.mp hsorted
    rcases List.mem_cons.mp hv with rfl | hv
    · rw [List.filter_cons_of_pos (by simp), List.filter_cons_of_neg (by simp)]
      congr 1
      exact List.filter_congr fun y hy => by simp [hx y hy, (hx y hy).le]
    · have hlt : x.1 < objid := hx _ hv
      rw [List.filter_cons_of_neg (by simpa using hlt), List.filter_cons_of_neg (by simpa using hlt.le)]
      exact ih hsorted hv

theorem idRemove_spec (htree : ct.idTree = l.map encodeId) (hl : IdsOk l)
    (hkey : osBstrToU64 key = .ok objid) :
    Ends (idRemove key) ct (fun _ ct' => ct' = { ct with idTree := (eraseId objid l).map encodeId })
      (fun e ct' => ct' = ct ∧ e = .keyNotFound ∧ ∀ v, (objid, v) ∉ l) := by
  unfold idRemove
  refine (idSearch_spec htree hl hkey).seq fun value ct' h => ?_
  obtain ⟨rfl, v, hv, -⟩ := h
  rw [ends_bind, ends_get, htree, idSplit_encode hkey hl, ends_bind, ends_fromExcept_ok, ends_modify,
    filter_le_of_mem hl.sorted hv]
  simp [eraseId]

/-- Taking out an entry and putting it in again with another number. -/
theorem idUpdate_spec (htree : ct.idTree = l.map encodeId) (hl : IdsOk l) (hobjid : objid < 2 ^ 64) :
    Ends (idUpdate (osU64ToBstr objid) (osU64ToBstr vbn)) ct
      (fun _ ct' => ct' = { ct with idTree := (setId objid vbn l).map encodeId }) fun _ _ => False := by
  have hkey := osBstrToU64_osU64ToBstr hobjid
  unfold idUpdate
  refine Ends.bind (ends_codeOf.mpr ((idRemove_spec htree hl hkey).mono (fun _ ct' h => ?_) fun e ct' h => ?_))
  · subst h
    rw [← setId_eraseId]
    exact idInsert_spec rfl hl.erase hobjid fun v hv => (mem_of_mem_eraseId hv).2 rfl
  · obtain ⟨rfl, rfl, habsent⟩ := h
    rw [if_neg (by simp [ErrorCode.stops])]
    exact idInsert_spec htree hl hobjid habsent

end Ids

end IndexFs.Object
