import IndexFs.Space.Allocator

/-!
# A list of extents as the tree

The simplest tree that behaves as the space manager expects: the extents in a
list and the cursor as an index into it. The operations take and compare the
byte strings as the real ones do.

Result: `listTree_orderedMap`, the operations behave as an ordered map.
-/

namespace IndexFs.Space

open IndexFs.Collate

/-- An extent whose two numbers fit in a `uint64_t`. -/
abbrev Extent64 := { e : ℕ × ℕ // e.1 < 2 ^ 64 ∧ e.2 < 2 ^ 64 }

/-- Extents and a cursor; a cursor past the end is on the END entry. -/
structure ListTree where
  extents : List Extent64
  cursor : ℕ

namespace ListTree

/-- The extents in order. -/
def exts (t : ListTree) : List (ℕ × ℕ) := t.extents.map Subtype.val

/-- The entry under the cursor. -/
def ie (t : ListTree) : IndexEntry :=
  match t.extents[t.cursor]? with
  | some e =>
    { len := 0, prevLen := 0, key := osU64ToBstr e.1.1, value := osU64ToBstr e.1.2, vbn := 0,
      isNode := false, isEnd := false, isBegin := false }
  | none =>
    { len := 0, prevLen := 0, key := [], value := [], vbn := 0,
      isNode := false, isEnd := true, isBegin := false }

/-- Rest on the first extent that does not lie before the query. -/
def search (key value : Bytes) : EStateM ErrorCode ListTree Unit := do
  let s ← fromExcept (osBstrToU64 key)
  let c ← fromExcept (osBstrToU64 value)
  let t ← get
  let i := t.exts.findIdx fun e => decide (0 ≤ extentOrd s c e)
  set { t with cursor := i }
  match t.exts[i]? with
  | some e => if extentOrd s c e = 0 then return () else throw .keyNotFound
  | none => throw .keyNotFound

/-- Go to the first extent, or to the one before the cursor. -/
def walk (flags : WalkFlags) : EStateM ErrorCode ListTree Unit := do
  let t ← get
  if flags.getFirst then
    if t.extents = [] then throw .root else set { t with cursor := 0 }
  else if flags.getPrev then
    if t.cursor = 0 ∨ t.extents.length < t.cursor then throw .root
    else set { t with cursor := t.cursor - 1 }
  else throw .nextEntry

/-- Take out the entry under the cursor. -/
def remove : EStateM ErrorCode ListTree Unit :=
  modify fun t => { extents := t.extents.eraseIdx t.cursor, cursor := 0 }

/-- Insert before the first extent that lies behind the new one. -/
def insert (key value : Bytes) : EStateM ErrorCode ListTree Unit := do
  let s ← fromExcept (osBstrToU64 key)
  let c ← fromExcept (osBstrToU64 value)
  if h : s < 2 ^ 64 ∧ c < 2 ^ 64 then
    modify fun t =>
      { t with
        extents :=
          t.extents.insertIdx (t.exts.findIdx fun e => decide (0 < extentOrd s c e)) ⟨(s, c), h⟩ }
  else throw .parameter

/-- The list as a tree. -/
def ops : TreeOps ListTree where
  indexSearchKeyNolock := search
  walkTree := walk
  treeRemoveIe := remove
  indexInsertKeyNolock := insert
  ie := ie

/-! ## It behaves as an ordered map -/

theorem onEntry {t : ListTree} {e : Extent64} (h : t.extents[t.cursor]? = some e) :
    OnEntry ops t e.1 where
  notEnd := by simp [ops, ie, h]
  key := by simp [ops, ie, h, osBstrToU64_osU64ToBstr e.2.1]
  value := by simp [ops, ie, h, osBstrToU64_osU64ToBstr e.2.2]

theorem onEntry_of_ext {t : ListTree} {e : ℕ × ℕ} (h : t.exts[t.cursor]? = some e) :
    OnEntry ops t e := by
  unfold exts at h
  rw [List.getElem?_map, Option.map_eq_some_iff] at h
  obtain ⟨e', he', rfl⟩ := h
  exact onEntry he'

theorem ie_isEnd {t : ListTree} (h : t.exts.length ≤ t.cursor) : (ops.ie t).isEnd = true := by
  have hnone : t.extents[t.cursor]? = none := by simpa [exts] using h
  simp [ops, ie, hnone]

/-- The first element satisfying `p` after a part that does not. -/
theorem findIdx_append_of_neg {α : Type*} {p : α → Bool} {A B : List α}
    (hA : ∀ x ∈ A, p x = false) (hB : ∀ x ∈ B, p x = true) : (A ++ B).findIdx p = A.length := by
  rw [List.findIdx_append, List.findIdx_eq_length_of_false hA, if_neg (lt_irrefl _)]
  cases B with
  | nil => simp
  | cons b B => simp [List.findIdx_cons, hB b (by simp)]

theorem insertIdx_length {α : Type*} (A C : List α) (x : α) :
    (A ++ C).insertIdx A.length x = A ++ x :: C := by
  induction A with
  | nil => simp
  | cons a A ih => simp [ih]

theorem search_spec {t : ListTree} {s c : ℕ} {A B C : List (ℕ × ℕ)} (hs : s < 2 ^ 64)
    (hc : c < 2 ^ 64) (hext : t.exts = A ++ B ++ C) (hA : ∀ e ∈ A, extentOrd s c e < 0)
    (hB : ∀ e ∈ B, extentOrd s c e = 0) (hC : ∀ e ∈ C, 0 < extentOrd s c e) :
    Ends (search (osU64ToBstr s) (osU64ToBstr c)) t
      (fun _ t' => t'.exts = t.exts ∧
        ∃ B₁ e B₂, B = B₁ ++ e :: B₂ ∧ t'.cursor = (A ++ B₁).length ∧ OnEntry ops t' e)
      (fun ret t' => ret = .keyNotFound ∧ B = [] ∧ t'.exts = t.exts ∧ t'.cursor = A.length ∧
        (C = [] → (ops.ie t').isEnd = true) ∧ ∀ e C', C = e :: C' → OnEntry ops t' e) := by
  have hfind : t.exts.findIdx (fun e => decide (0 ≤ extentOrd s c e)) = A.length := by
    rw [hext, List.append_assoc]
    refine findIdx_append_of_neg (fun x hx => by simpa using hA x hx) fun x hx => ?_
    rcases List.mem_append.mp hx with hx | hx
    · simp [hB x hx]
    · simpa using (hC x hx).le
  unfold search
  rw [osBstrToU64_osU64ToBstr hs, osBstrToU64_osU64ToBstr hc]
  refine Ends.bind ?_
  rw [ends_fromExcept_ok]
  refine Ends.bind ?_
  rw [ends_fromExcept_ok]
  refine Ends.bind ?_
  rw [ends_get]
  refine Ends.bind ?_
  rw [hfind, ends_set]
  have hext' : ({ t with cursor := A.length } : ListTree).exts = t.exts := rfl
  cases B with
  | cons e B =>
    have hget : t.exts[A.length]? = some e := by simp [hext]
    rw [hget]
    dsimp only
    rw [if_pos (hB e (by simp)), ends_pure]
    exact ⟨hext', [], e, B, rfl, by simp, onEntry_of_ext hget⟩
  | nil =>
    cases C with
    | nil =>
      have hget : t.exts[A.length]? = none := by simp [hext]
      rw [hget]
      dsimp only
      rw [ends_throw]
      exact ⟨rfl, rfl, hext', rfl, fun _ => ie_isEnd (by simp [hext', hext]), by simp⟩
    | cons e C =>
      have hget : t.exts[A.length]? = some e := by simp [hext]
      rw [hget]
      dsimp only
      rw [if_neg (hC e (by simp)).ne', ends_throw]
      refine ⟨rfl, rfl, hext', rfl, by simp, fun e' C' he => ?_⟩
      obtain ⟨rfl, -⟩ := List.cons.inj he
      exact onEntry_of_ext hget

theorem first_spec (t : ListTree) : Ends (walk { getFirst := true }) t
    (fun _ t' => t'.exts = t.exts ∧ ∃ e C, t.exts = e :: C ∧ t'.cursor = 0 ∧ OnEntry ops t' e)
    (fun ret t' => ret = .root ∧ t.exts = [] ∧ t'.exts = t.exts) := by
  unfold walk
  refine Ends.bind ?_
  rw [ends_get, if_pos rfl]
  split_ifs with hnil
  · exact ⟨rfl, by simp [exts, hnil], rfl⟩
  · obtain ⟨e, l, hcons⟩ := List.exists_cons_of_ne_nil hnil
    rw [ends_set]
    exact ⟨rfl, e.1, l.map Subtype.val, by simp [exts, hcons], rfl, onEntry (by simp [hcons])⟩

theorem prev_spec (t : ListTree) : Ends (walk { getPrev := true }) t
    (fun _ t' => t'.exts = t.exts ∧ ∃ A e C, t.exts = A ++ e :: C ∧ t.cursor = A.length + 1 ∧
      t'.cursor = A.length ∧ OnEntry ops t' e)
    (fun ret t' => ret.stops = false ∧ t'.exts = t.exts) := by
  unfold walk
  refine Ends.bind ?_
  rw [ends_get, if_neg (by simp), if_pos rfl]
  split_ifs with hedge
  · exact ⟨rfl, rfl⟩
  · have hlt : t.cursor - 1 < t.exts.length := by simp only [exts, List.length_map]; omega
    rw [ends_set]
    refine ⟨rfl, t.exts.take (t.cursor - 1), t.exts[t.cursor - 1], t.exts.drop t.cursor, ?_, ?_, ?_,
      onEntry_of_ext (List.getElem?_eq_getElem hlt)⟩
    · have hsucc : t.cursor - 1 + 1 = t.cursor := by omega
      conv_lhs => rw [← List.take_append_drop (t.cursor - 1) t.exts, List.drop_eq_getElem_cons hlt,
        hsucc]
    · rw [List.length_take]
      omega
    · rw [List.length_take, Nat.min_eq_left hlt.le]

theorem remove_spec {t : ListTree} {A C : List (ℕ × ℕ)} {e : ℕ × ℕ} (hext : t.exts = A ++ e :: C)
    (hpos : t.cursor = A.length) :
    Ends remove t (fun _ t' => t'.exts = A ++ C) (fun _ _ => False) := by
  unfold remove
  rw [ends_modify]
  change (t.extents.eraseIdx t.cursor).map Subtype.val = A ++ C
  have hmap : (t.extents.eraseIdx t.cursor).map Subtype.val = t.exts.eraseIdx t.cursor := by
    simp [exts, List.eraseIdx_map]
  rw [hmap, hext, hpos, List.eraseIdx_append_of_length_le le_rfl]
  simp

theorem insert_spec {t : ListTree} {s c : ℕ} {A C : List (ℕ × ℕ)} (hs : s < 2 ^ 64)
    (hc : c < 2 ^ 64) (hext : t.exts = A ++ C) (hA : ∀ e ∈ A, extentOrd s c e < 0)
    (hC : ∀ e ∈ C, 0 < extentOrd s c e) :
    Ends (insert (osU64ToBstr s) (osU64ToBstr c)) t (fun _ t' => t'.exts = A ++ (s, c) :: C)
      (fun _ _ => False) := by
  have hfind : t.exts.findIdx (fun e => decide (0 < extentOrd s c e)) = A.length := by
    rw [hext]
    exact findIdx_append_of_neg (fun x hx => by simpa using (hA x hx).le)
      fun x hx => by simpa using hC x hx
  unfold insert
  rw [osBstrToU64_osU64ToBstr hs, osBstrToU64_osU64ToBstr hc]
  refine Ends.bind ?_
  rw [ends_fromExcept_ok]
  refine Ends.bind ?_
  rw [ends_fromExcept_ok, dif_pos ⟨hs, hc⟩, ends_modify]
  change (List.insertIdx _ _ _).map Subtype.val = _
  rw [List.map_insertIdx, hfind]
  change t.exts.insertIdx A.length (s, c) = _
  rw [hext, insertIdx_length]

/-- The list operations behave as an ordered map. -/
theorem listTree_orderedMap : OrderedMap ops exts cursor where
  search _ _ _ _ _ _ hs hc hext hA hB hC := search_spec hs hc hext hA hB hC
  first := first_spec
  prev := prev_spec
  remove _ _ _ _ hext hpos _ := remove_spec hext hpos
  insert _ _ _ _ _ hs hc hext hA hC := insert_spec hs hc hext hA hC

end ListTree

end IndexFs.Space
