import IndexFs.Lib.Extents
import IndexFs.Space.Manager

/-!
# The allocator hands out every free block once

The tree below the space manager is taken as an ordered map of extents
(`OrderedMap`): a search finds an overlapping extent or the least greater one,
removal takes out the entry under the cursor and leaves the cursor anywhere.

Results, for a tree of separated, nonempty extents of block numbers below `2^31`:

* `allocSpace_spec`: an allocation carves its range out of one free extent and
  fails exactly when there is none.
* `freeSpace_spec`: freeing a range adds exactly that range.
* `allocator_semantics`: both, and what follows for every sequence of
  `sm_alloc_space` and `sm_free_space` calls.
-/

namespace IndexFs.Space

open IndexFs.Collate

variable {τ : Type}

/-! ## The tree as an ordered map -/

/-- What `os_collate_extent` returns for the extent `e` and the query `[s, s + c)`. -/
def extentOrd (s c : ℕ) (e : ℕ × ℕ) : ℤ :=
  if e.1 ≥ uint64 (s + c) then 1 else if uint64 (e.1 + e.2) ≤ s then -1 else 0

/-- The cursor is on the entry of the extent `e`. -/
structure OnEntry (ops : TreeOps τ) (t : τ) (e : ℕ × ℕ) : Prop where
  notEnd : (ops.ie t).isEnd = false
  key : osBstrToU64 (ops.ie t).key = .ok e.1
  value : osBstrToU64 (ops.ie t).value = .ok e.2

/-- The tree operations behave as an ordered map: `exts` lists the extents in
order, `pos` is the number of extents before the cursor. -/
structure OrderedMap (ops : TreeOps τ) (exts : τ → List (ℕ × ℕ)) (pos : τ → ℕ) : Prop where
  /-- A search rests on an overlapping extent, or on the least greater one (on
  the END entry if there is none). -/
  search : ∀ t s c A B C, s < 2 ^ 64 → c < 2 ^ 64 → exts t = A ++ B ++ C →
    (∀ e ∈ A, extentOrd s c e < 0) → (∀ e ∈ B, extentOrd s c e = 0) →
    (∀ e ∈ C, 0 < extentOrd s c e) →
    Ends (ops.indexSearchKeyNolock (osU64ToBstr s) (osU64ToBstr c)) t
      (fun _ t' => exts t' = exts t ∧
        ∃ B₁ e B₂, B = B₁ ++ e :: B₂ ∧ pos t' = (A ++ B₁).length ∧ OnEntry ops t' e)
      (fun ret t' => ret = .keyNotFound ∧ B = [] ∧ exts t' = exts t ∧ pos t' = A.length ∧
        (C = [] → (ops.ie t').isEnd = true) ∧ ∀ e C', C = e :: C' → OnEntry ops t' e)
  /-- `INDEX_GET_FIRST` goes to the first extent. -/
  first : ∀ t, Ends (ops.walkTree { getFirst := true }) t
    (fun _ t' => exts t' = exts t ∧ ∃ e C, exts t = e :: C ∧ pos t' = 0 ∧ OnEntry ops t' e)
    (fun ret t' => ret = .root ∧ exts t = [] ∧ exts t' = exts t)
  /-- `INDEX_GET_PREV` goes to the extent before the cursor. -/
  prev : ∀ t, Ends (ops.walkTree { getPrev := true }) t
    (fun _ t' => exts t' = exts t ∧ ∃ A e C, exts t = A ++ e :: C ∧ pos t = A.length + 1 ∧
      pos t' = A.length ∧ OnEntry ops t' e)
    (fun ret t' => ret.stops = false ∧ exts t' = exts t)
  /-- Removal takes out the entry under the cursor. -/
  remove : ∀ t A e C, exts t = A ++ e :: C → pos t = A.length → OnEntry ops t e →
    Ends ops.treeRemoveIe t (fun _ t' => exts t' = A ++ C) (fun _ _ => False)
  /-- Insertion places an extent that overlaps none at its sorted place. -/
  insert : ∀ t s c A C, s < 2 ^ 64 → c < 2 ^ 64 → exts t = A ++ C →
    (∀ e ∈ A, extentOrd s c e < 0) → (∀ e ∈ C, 0 < extentOrd s c e) →
    Ends (ops.indexInsertKeyNolock (osU64ToBstr s) (osU64ToBstr c)) t
      (fun _ t' => exts t' = A ++ (s, c) :: C) (fun _ _ => False)

/-- Separated nonempty extents between the blocks `lo` and `hi`. -/
structure ExtentsIn (lo hi : ℕ) (l : List (ℕ × ℕ)) : Prop where
  separated : Separated l
  nonempty : ∀ e ∈ l, 1 ≤ e.2
  bounded : ∀ e ∈ l, lo ≤ e.1 ∧ e.1 + e.2 ≤ hi

/-- Separated nonempty extents of block numbers below `2^31`. -/
def FreeExtents (l : List (ℕ × ℕ)) : Prop := ExtentsIn 0 (2 ^ 31) l

/-- Lengths between `lo` and `hi` fit in a `uint32_t`, and no sum with one overflows. -/
structure Window (lo hi : ℕ) : Prop where
  width : hi < lo + 2 ^ 32
  below : hi < 2 ^ 63

theorem window_two_pow_31 : Window 0 (2 ^ 31) := ⟨by norm_num, by norm_num⟩

variable {lo hi : ℕ}

/-! ## Comparing with separated extents -/

theorem ExtentsIn.extentOrd_monotone {l : List (ℕ × ℕ)} (h : ExtentsIn lo hi l) (hbelow : hi < 2 ^ 64)
    (s c : ℕ) : l.Pairwise fun e f => (0 < extentOrd s c e → 0 < extentOrd s c f) ∧
      (extentOrd s c f < 0 → extentOrd s c e < 0) := by
  refine h.separated.imp_of_mem fun {e f} he hf hef => ?_
  have he1 := h.nonempty e he
  have he2 := h.bounded e he
  have hf1 := h.nonempty f hf
  have hf2 := h.bounded f hf
  unfold extentOrd uint64
  constructor
  · split_ifs <;> omega
  · split_ifs <;> omega

/-- Removing the entry at a position keeps the rest free. -/
theorem ExtentsIn.erase {A C : List (ℕ × ℕ)} {e : ℕ × ℕ} (h : ExtentsIn lo hi (A ++ e :: C)) :
    ExtentsIn lo hi (A ++ C) where
  separated := (separated_append_cons.mp h.separated).1
  nonempty x hx := h.nonempty x (by simp at hx ⊢; tauto)
  bounded x hx := h.bounded x (by simp at hx ⊢; tauto)

theorem ExtentsIn.insert {A C : List (ℕ × ℕ)} {s c : ℕ} (h : ExtentsIn lo hi (A ++ C))
    (hA : ∀ x ∈ A, x.1 + x.2 ≤ s) (hC : ∀ x ∈ C, s + c ≤ x.1) (hc : 1 ≤ c) (hlo : lo ≤ s)
    (hhi : s + c ≤ hi) : ExtentsIn lo hi (A ++ (s, c) :: C) where
  separated := separated_insert h.separated hA hC
  nonempty x hx := by
    rcases List.mem_append.mp hx with hx | hx
    · exact h.nonempty x (List.mem_append_left _ hx)
    · rcases List.mem_cons.mp hx with rfl | hx
      · exact hc
      · exact h.nonempty x (List.mem_append_right _ hx)
  bounded x hx := by
    rcases List.mem_append.mp hx with hx | hx
    · exact h.bounded x (List.mem_append_left _ hx)
    · rcases List.mem_cons.mp hx with rfl | hx
      · exact ⟨hlo, hhi⟩
      · exact h.bounded x (List.mem_append_right _ hx)

section Proofs

variable {ops : TreeOps τ} {exts : τ → List (ℕ × ℕ)} {pos : τ → ℕ}

/-! ## Reading the entry under the cursor -/

theorem ieAddr_spec {t : τ} {e : ℕ × ℕ} (h : OnEntry ops t e) {Q : ℕ → τ → Prop}
    {F : ErrorCode → τ → Prop} : Ends (ieAddr ops) t Q F ↔ Q e.1 t := by
  unfold ieAddr
  rw [ends_bind, ends_get, h.key, ends_fromExcept_ok]

theorem ieLen_spec {t : τ} {e : ℕ × ℕ} (h : OnEntry ops t e) {Q : ℕ → τ → Prop}
    {F : ErrorCode → τ → Prop} : Ends (ieLen ops) t Q F ↔ Q (uint32 e.2) t := by
  unfold ieLen
  rw [ends_bind, ends_get, ends_bind, h.value, ends_fromExcept_ok, ends_pure]

/-- Inserting an extent into a gap of the list. -/
theorem insertExtent_spec (hm : OrderedMap ops exts pos) {t : τ} {A C : List (ℕ × ℕ)} {s c : ℕ}
    (hext : exts t = A ++ C) (hf : ExtentsIn lo hi (A ++ C)) (hw : Window lo hi)
    (hA : ∀ x ∈ A, x.1 + x.2 ≤ s) (hC : ∀ x ∈ C, s + c ≤ x.1) (hs : s + c ≤ hi) :
    Ends (insertExtent ops s c) t (fun _ t' => exts t' = A ++ (s, c) :: C) fun _ _ => False := by
  have hbelow := hw.below
  refine hm.insert t s c A C (by omega) (by omega) hext (fun e he => ?_) (fun e he => ?_)
  · have h1 := hA e he
    have h2 := hf.nonempty e (List.mem_append_left _ he)
    unfold extentOrd uint64
    rw [if_neg (by omega), if_pos (by omega)]
    decide
  · have h1 := hC e he
    unfold extentOrd uint64
    rw [if_pos (by omega)]
    decide

/-! ## `alloc_space` -/

/-- The extents a request for `cnt` blocks near `start` may be served from, and the block it is
tried from: an overlapping extent, else the least greater one, else the first one. -/
inductive Serves (l : List (ℕ × ℕ)) (start cnt : ℕ) : ℕ × ℕ → ℕ → Prop
  | overlap {e} (he : e ∈ l) (hzero : extentOrd start cnt e = 0) : Serves l start cnt e start
  | behind {A e C} (hl : l = A ++ e :: C) (hA : ∀ x ∈ A, extentOrd start cnt x < 0)
      (he : 0 < extentOrd start cnt e) : Serves l start cnt e e.1
  | first {e C} (hl : l = e :: C) (hall : ∀ x ∈ l, extentOrd start cnt x < 0) :
      Serves l start cnt e e.1

/-- The search leaves the cursor on a free extent and proposes a start before its end. -/
theorem allocSpaceSearch_spec (hm : OrderedMap ops exts pos) {t : τ} {start cnt : ℕ}
    (hf : ExtentsIn lo hi (exts t)) (hw : Window lo hi) (hstart : start < 2 ^ 64) (hcnt : cnt < 2 ^ 32) :
    Ends (allocSpaceSearch ops start cnt) t
      (fun start' t' => exts t' = exts t ∧ ∃ A e C, exts t = A ++ e :: C ∧ pos t' = A.length ∧
        OnEntry ops t' e ∧ start' < e.1 + e.2 ∧ Serves (exts t) start cnt e start')
      (fun ret t' => ret = .noFreeBlocks ∧ exts t = [] ∧ exts t' = exts t) := by
  have hbelow := hw.below
  obtain ⟨A, B, C, hABC, hA, hB, hC⟩ :=
    exists_split _ (hf.extentOrd_monotone (by omega) start cnt)
  unfold allocSpaceSearch
  refine Ends.bind (Ends.codeOf ((hm.search t start cnt A B C hstart (by omega) hABC hA hB hC).mono
    ?found ?notFound))
  case found =>
    rintro _ t' ⟨hext, B₁, e, B₂, rfl, hpos, hon⟩
    have hmem : e ∈ exts t := by simp [hABC]
    have hzero := hB e (by simp)
    refine ⟨hext, A ++ B₁, e, B₂ ++ C, by simp [hABC], hpos, hon, ?_, .overlap hmem hzero⟩
    have h1 := hf.bounded e hmem
    unfold extentOrd uint64 at hzero
    split_ifs at hzero <;> omega
  case notFound =>
    rintro ret t' ⟨rfl, rfl, hext, hpos, hend, hhead⟩
    have hpositive : ∀ e ∈ exts t, 1 ≤ e.2 := hf.nonempty
    refine ⟨rfl, ?_⟩
    simp only [ne_eq, not_true_eq_false, if_false]
    refine Ends.bind ?_
    rw [ends_get]
    cases C with
    | nil =>
      rw [if_pos (hend rfl)]
      refine Ends.bind (Ends.codeOf ((hm.first t').mono ?first ?empty))
      case first =>
        rintro _ t'' ⟨hext', e, C, hcons, hpos', hon⟩
        rw [hext] at hcons
        have hall : ∀ x ∈ exts t, extentOrd start cnt x < 0 := fun x hx => by
          rw [hABC] at hx
          exact hA x (by simpa using hx)
        refine (ieAddr_spec hon).mpr
          ⟨hext'.trans hext, [], e, C, hcons, hpos', hon, ?_, .first hcons hall⟩
        have := hpositive e (by simp [hcons])
        omega
      case empty =>
        rintro ret t'' ⟨rfl, hnil, hext'⟩
        exact ⟨rfl, rfl, hext ▸ hnil, hext'.trans hext⟩
    | cons e C =>
      have hon := hhead e C rfl
      rw [if_neg (by simp [hon.notEnd])]
      have hsplit : exts t = A ++ e :: C := by simp [hABC]
      refine (ieAddr_spec hon).mpr
        ⟨hext, A, e, C, hsplit, hpos, hon, ?_, .behind hsplit hA (hC e (by simp))⟩
      have := hpositive e (by simp [hABC])
      omega

/-- The postcondition of an allocation of at most `cnt` blocks from the extents `l` between `lo` and
`hi`: the returned range comes from one of them and `l'` is left. -/
structure AllocatedIn (lo hi : ℕ) (l : List (ℕ × ℕ)) (cnt : ℕ) (r : ℤ × ℕ) (l' : List (ℕ × ℕ)) : Prop where
  count : ∃ n : ℕ, r.1 = n ∧ 1 ≤ n ∧ n ≤ cnt
  inside : ∃ e ∈ l, Set.Ico r.2 (r.2 + r.1.toNat) ⊆ Set.Ico e.1 (e.1 + e.2)
  free : ExtentsIn lo hi l'
  covered_eq : covered l' = covered l \ Set.Ico r.2 (r.2 + r.1.toNat)

/-- The postcondition of an allocation from extents of block numbers below `2^31`. -/
def Allocated (l : List (ℕ × ℕ)) (cnt : ℕ) (r : ℤ × ℕ) (l' : List (ℕ × ℕ)) : Prop :=
  AllocatedIn 0 (2 ^ 31) l cnt r l'

/-- Carving `n` blocks at `s` out of the extent `e`, with the rest `K` of `e` kept. -/
theorem allocated_carve {A K C : List (ℕ × ℕ)} {e : ℕ × ℕ} {s n cnt : ℕ}
    (hf : ExtentsIn lo hi (A ++ e :: C)) (hfree : ExtentsIn lo hi (A ++ K ++ C)) (hn : 1 ≤ n)
    (hle : n ≤ cnt) (h1 : e.1 ≤ s) (h2 : s + n ≤ e.1 + e.2)
    (hK : covered K = Set.Ico e.1 (e.1 + e.2) \ Set.Ico s (s + n)) :
    AllocatedIn lo hi (A ++ e :: C) cnt ((n : ℤ), s) (A ++ K ++ C) where
  count := ⟨n, rfl, hn, hle⟩
  inside := ⟨e, by simp, Set.Ico_subset_Ico h1 h2⟩
  free := hfree
  covered_eq := covered_carve hf.separated hK (Set.Ico_subset_Ico h1 h2)

theorem int32_of_lt {n : ℕ} (h : n < 2 ^ 31) : int32 n = n := by
  unfold int32
  rw [Nat.mod_eq_of_lt (by omega), if_pos h]

/-- The range starts at the extent: what is left of the extent stays behind it. -/
theorem allocSpaceFront_spec (hm : OrderedMap ops exts pos) {t : τ} {A C : List (ℕ × ℕ)}
    {e : ℕ × ℕ} {cnt : ℕ} (hf : ExtentsIn lo hi (A ++ e :: C)) (hw : Window lo hi) (hext : exts t = A ++ C)
    (hpos : 1 ≤ cnt) (hcnt : cnt < 2 ^ 32) (hsmall : min cnt e.2 < 2 ^ 31) :
    Ends (allocSpaceFront ops e.1 (e.1 + e.2) e.2 cnt) t
      (fun r t' => AllocatedIn lo hi (A ++ e :: C) cnt r (exts t')) (fun _ _ => False) := by
  have hbelow := hw.below
  have hwidth := hw.width
  have he1 : 1 ≤ e.2 := hf.nonempty e (by simp)
  have he2 : lo ≤ e.1 ∧ e.1 + e.2 ≤ hi := hf.bounded e (by simp)
  obtain ⟨-, hA, hC⟩ := separated_append_cons.mp hf.separated
  have hend : uint64 (e.1 + cnt) = e.1 + cnt := Nat.mod_eq_of_lt (by omega)
  unfold allocSpaceFront
  simp only [hend]
  by_cases hfit : e.1 + cnt < e.1 + e.2
  · have hrest : uint64Sub (e.1 + e.2) (e.1 + cnt) = e.2 - cnt := by unfold uint64Sub; omega
    have hret : uint64Sub (e.1 + cnt) e.1 = cnt := by unfold uint64Sub; omega
    rw [if_pos hfit, hrest, hret, int32_of_lt (by omega)]
    have hA' : ∀ x ∈ A, x.1 + x.2 ≤ e.1 + cnt := fun x hx => (hA x hx).trans (by omega)
    have hC' : ∀ x ∈ C, e.1 + cnt + (e.2 - cnt) ≤ x.1 := fun x hx => by have := hC x hx; omega
    refine (insertExtent_spec hm hext hf.erase hw hA' hC' (by omega)).seq fun _ t₃ hext₃ => ?_
    have hK : A ++ (e.1 + cnt, e.2 - cnt) :: C = A ++ [(e.1 + cnt, e.2 - cnt)] ++ C := by simp
    rw [ends_pure, hext₃, hK]
    refine allocated_carve hf ?_ hpos le_rfl le_rfl (by omega) ?_
    · rw [← hK]
      exact hf.erase.insert hA' hC' (by omega) (by omega) (by omega)
    · ext b; simp; omega
  · -- the whole extent is handed out
    have hK : A ++ C = A ++ [] ++ C := by simp
    rw [if_neg hfit, ends_pure, hext, hK, int32_of_lt (by omega)]
    exact allocated_carve hf (by simpa using hf.erase) he1 (by omega) le_rfl le_rfl (by simp)

/-- The range starts inside the extent: a part stays before it and perhaps one behind it. -/
theorem allocSpaceInside_spec (hm : OrderedMap ops exts pos) {t : τ} {A C : List (ℕ × ℕ)}
    {e : ℕ × ℕ} {start cnt : ℕ} (hf : ExtentsIn lo hi (A ++ e :: C)) (hw : Window lo hi)
    (hext : exts t = A ++ C) (hpos : 1 ≤ cnt) (hcnt : cnt < 2 ^ 32)
    (hsmall : min cnt (e.1 + e.2 - start) < 2 ^ 31) (hgt : e.1 < start) (hlt : start < e.1 + e.2) :
    Ends (allocSpaceInside ops start e.1 (e.1 + e.2) cnt) t
      (fun r t' => AllocatedIn lo hi (A ++ e :: C) cnt r (exts t')) (fun _ _ => False) := by
  have hbelow := hw.below
  have hwidth := hw.width
  have he2 : lo ≤ e.1 ∧ e.1 + e.2 ≤ hi := hf.bounded e (by simp)
  obtain ⟨-, hA, hC⟩ := separated_append_cons.mp hf.separated
  have hend : uint64 (start + cnt) = start + cnt := Nat.mod_eq_of_lt (by omega)
  have hbefore : uint64Sub start e.1 = start - e.1 := by unfold uint64Sub; omega
  have hC' : ∀ x ∈ C, e.1 + (start - e.1) ≤ x.1 := fun x hx => by have := hC x hx; omega
  have hf' : ExtentsIn lo hi (A ++ (e.1, start - e.1) :: C) :=
    hf.erase.insert hA hC' (by omega) (by omega) (by omega)
  unfold allocSpaceInside
  simp only [hend, hbefore]
  refine Ends.bind (ends_assertThat.mpr ⟨fun _ => ?_, fun h => h hlt⟩)
  refine (insertExtent_spec hm hext hf.erase hw hA hC' (by omega)).seq fun _ t₃ hext₃ => ?_
  rw [List.append_cons] at hext₃ hf'
  by_cases hfit : start + cnt < e.1 + e.2
  · have hrest : uint64Sub (e.1 + e.2) (start + cnt) = e.1 + e.2 - (start + cnt) := by
      unfold uint64Sub; omega
    rw [if_pos hfit, hrest, int32_of_lt (by omega)]
    have hA' : ∀ x ∈ A ++ [(e.1, start - e.1)], x.1 + x.2 ≤ start + cnt := by
      intro x hx
      rcases List.mem_append.mp hx with hx | hx
      · exact (hA x hx).trans (by omega)
      · rw [List.mem_singleton.mp hx]
        dsimp only
        omega
    have hC'' : ∀ x ∈ C, start + cnt + (e.1 + e.2 - (start + cnt)) ≤ x.1 := fun x hx => by
      have := hC x hx
      omega
    refine (insertExtent_spec hm hext₃ hf' hw hA' hC'' (by omega)).seq fun _ t₄ hext₄ => ?_
    have hK : A ++ [(e.1, start - e.1)] ++ (start + cnt, e.1 + e.2 - (start + cnt)) :: C =
        A ++ [(e.1, start - e.1), (start + cnt, e.1 + e.2 - (start + cnt))] ++ C := by simp
    rw [ends_pure, hext₄, hK]
    refine allocated_carve hf ?_ hpos le_rfl (by omega) (by omega) ?_
    · rw [← hK]
      exact hf'.insert hA' hC'' (by omega) (by omega) (by omega)
    · ext b; simp; omega
  · have hret : uint64Sub (e.1 + e.2) start = e.1 + e.2 - start := by unfold uint64Sub; omega
    rw [if_neg hfit, ends_pure, hext₃, hret, int32_of_lt (by omega)]
    refine allocated_carve hf hf' (by omega) (by omega) (by omega) (by omega) ?_
    ext b; simp; omega

/-- No extent that may serve the request gives `2^31` blocks or more. -/
def ServesInt32 (l : List (ℕ × ℕ)) (start cnt : ℕ) : Prop :=
  ∀ e s, Serves l start cnt e s → min cnt (e.1 + e.2 - max s e.1) < 2 ^ 31

theorem servesInt32_of_lt {l : List (ℕ × ℕ)} {start cnt : ℕ} (h : cnt < 2 ^ 31) :
    ServesInt32 l start cnt := fun _ _ _ => (min_le_left _ _).trans_lt h

/-- `alloc_space` between the blocks `lo` and `hi`, for a count that comes back positive. -/
theorem allocSpace_window (hm : OrderedMap ops exts pos) {t : τ} {start cnt : ℕ}
    (hf : ExtentsIn lo hi (exts t)) (hw : Window lo hi) (hstart : start < 2 ^ 64) (hpos : 1 ≤ cnt)
    (hcnt : cnt < 2 ^ 32) (hsmall : ServesInt32 (exts t) start cnt) :
    Ends (allocSpace ops start cnt) t (fun r t' => AllocatedIn lo hi (exts t) cnt r (exts t'))
      (fun ret t' => ret = .noFreeBlocks ∧ exts t = [] ∧ exts t' = exts t) := by
  have hbelow := hw.below
  have hwidth := hw.width
  unfold allocSpace
  refine Ends.bind (ends_assertThat.mpr ⟨fun _ => ?_, fun h => absurd h (by omega)⟩)
  refine (allocSpaceSearch_spec hm hf hw hstart hcnt).seq ?_
  rintro start' t₁ ⟨hext₁, A, e, C, hABC, hpos₁, hon, hlt, hserves⟩
  have hsmall' := hsmall e start' hserves
  rw [hABC] at hf
  have he1 : 1 ≤ e.2 := hf.nonempty e (by simp)
  have he2 : lo ≤ e.1 ∧ e.1 + e.2 ≤ hi := hf.bounded e (by simp)
  refine Ends.bind ((ieAddr_spec hon).mpr (Ends.bind ((ieLen_spec hon).mpr ?_)))
  have hlen : uint32 e.2 = e.2 := Nat.mod_eq_of_lt (by omega)
  have hend : uint64 (e.1 + e.2) = e.1 + e.2 := Nat.mod_eq_of_lt (by omega)
  simp only [hlen, hend]
  refine Ends.bind (ends_assertThat.mpr ⟨fun _ => ?_, fun h => absurd h (by omega)⟩)
  refine Ends.seq ((hm.remove t₁ A e C (hext₁.trans hABC) hpos₁ hon).mono (fun _ _ h => h)
    fun _ _ h => h.elim) fun _ t₂ hext₂ => ?_
  rw [hABC]
  split_ifs with hle
  · rw [max_eq_right hle, Nat.add_sub_cancel_left] at hsmall'
    exact (allocSpaceFront_spec hm hf hw hext₂ hpos hcnt hsmall').mono (fun _ _ h => h)
      fun _ _ h => h.elim
  · rw [max_eq_left (by omega)] at hsmall'
    exact (allocSpaceInside_spec hm hf hw hext₂ hpos hcnt hsmall' (by omega) hlt).mono
      (fun _ _ h => h) fun _ _ h => h.elim

/-- `alloc_space` carves its range out of one free extent; it fails exactly when
nothing is free. -/
theorem allocSpace_spec (hm : OrderedMap ops exts pos) {t : τ} {start cnt : ℕ}
    (hf : FreeExtents (exts t)) (hstart : start < 2 ^ 64) (hpos : 1 ≤ cnt) (hcnt : cnt < 2 ^ 31) :
    Ends (allocSpace ops start cnt) t (fun r t' => Allocated (exts t) cnt r (exts t'))
      (fun ret t' => ret = .noFreeBlocks ∧ exts t = [] ∧ exts t' = exts t) :=
  allocSpace_window hm hf window_two_pow_31 hstart hpos (by omega) (servesInt32_of_lt hcnt)

/-! ## `free_space` -/

/-- Freeing widens the range `[s, s + n)` to `r` by extents it takes out of `l`;
the rest `A ++ C` of the list lies around `r`. -/
structure WidenedIn (lo hi : ℕ) (l : List (ℕ × ℕ)) (s n : ℕ) (r : ℕ × ℕ) (A C : List (ℕ × ℕ)) :
    Prop where
  free : ExtentsIn lo hi (A ++ C)
  before : ∀ x ∈ A, x.1 + x.2 ≤ r.1
  behind : ∀ x ∈ C, r.1 + r.2 ≤ x.1
  bounded : lo ≤ r.1 ∧ r.1 + r.2 ≤ hi
  count : n ≤ r.2
  covered_eq : covered (A ++ C) ∪ Set.Ico r.1 (r.1 + r.2) = covered l ∪ Set.Ico s (s + n)

/-- An extent that starts where the range ends is merged into it. -/
theorem WidenedIn.mergeNext {l A C : List (ℕ × ℕ)} {s n : ℕ} {r e : ℕ × ℕ}
    (h : WidenedIn lo hi l s n r A (e :: C)) (he : e.1 = r.1 + r.2) :
    WidenedIn lo hi l s n (r.1, r.2 + e.2) A C where
  free := h.free.erase
  before := h.before
  behind x hx := by
    have := (separated_append_cons.mp h.free.separated).2.2 x hx
    dsimp only
    omega
  bounded := by
    have h1 := h.bounded
    have h2 := h.free.bounded e (by simp)
    dsimp only
    omega
  count := h.count.trans (Nat.le_add_right _ _)
  covered_eq := by
    rw [← h.covered_eq, covered_insert A C e.1 e.2, he, Set.union_assoc]
    congr 1
    ext b; simp; omega

/-- An extent that ends where the range starts is merged into it. -/
theorem WidenedIn.mergePrev {l A C : List (ℕ × ℕ)} {s n : ℕ} {r e : ℕ × ℕ}
    (h : WidenedIn lo hi l s n r (A ++ [e]) C) (he : e.1 + e.2 = r.1) :
    WidenedIn lo hi l s n (e.1, r.2 + e.2) A C where
  free := by
    have := h.free
    rw [← List.append_cons] at this
    exact this.erase
  before x hx := by
    have hsep := h.free.separated
    rw [← List.append_cons] at hsep
    exact (separated_append_cons.mp hsep).2.1 x hx
  behind x hx := by
    have := h.behind x hx
    dsimp only
    omega
  bounded := by
    have h1 := h.bounded
    have h2 := h.free.bounded e (by simp)
    dsimp only
    omega
  count := h.count.trans (Nat.le_add_right _ _)
  covered_eq := by
    rw [← h.covered_eq, ← List.append_cons, covered_insert A C e.1 e.2, Set.union_assoc]
    congr 1
    ext b; simp; omega

/-- The entry under the cursor is merged exactly when it starts where the range ends. -/
theorem freeSpaceNext_spec (hm : OrderedMap ops exts pos) {t : τ} {l A C : List (ℕ × ℕ)}
    {s n : ℕ} (hext : exts t = A ++ C) (hwin : Window lo hi) (hw : WidenedIn lo hi l s n (s, n) A C)
    (hpos : pos t = A.length)
    (hend : C = [] → (ops.ie t).isEnd = true) (hhead : ∀ e C', C = e :: C' → OnEntry ops t e) :
    Ends (freeSpaceNext ops s n) t
      (fun n' t' => ∃ C', exts t' = A ++ C' ∧ WidenedIn lo hi l s n (s, n') A C' ∧
        (1 ≤ n' ∨ pos t' = A.length)) (fun _ _ => False) := by
  have hbelow := hwin.below
  have hwidth := hwin.width
  have hrange := hw.bounded
  dsimp only at hrange
  unfold freeSpaceNext
  refine Ends.bind ?_
  rw [ends_get]
  have hsum : uint64 (s + n) = s + n := Nat.mod_eq_of_lt (by omega)
  cases C with
  | nil =>
    rw [if_pos (hend rfl), ends_pure]
    exact ⟨[], hext, hw, .inr hpos⟩
  | cons e C =>
    have hon := hhead e C rfl
    have hbehind : s + n ≤ e.1 := hw.behind e (by simp)
    rw [if_neg (by simp [hon.notEnd])]
    refine Ends.bind ((ieAddr_spec hon).mpr (Ends.bind ((ieLen_spec hon).mpr ?_)))
    rw [hsum, if_neg (by omega)]
    by_cases heq : e.1 = s + n
    · have hbound := hw.free.bounded e (by simp)
      have hlen : uint32 e.2 = e.2 := Nat.mod_eq_of_lt (by omega)
      have hnew : uint32 (n + e.2) = n + e.2 := Nat.mod_eq_of_lt (by omega)
      rw [if_pos heq, hlen, hnew]
      refine (hm.remove t A e C hext hpos hon).seq fun _ t' hext' => ?_
      have he1 := hw.free.nonempty e (by simp)
      exact ⟨C, hext', hw.mergeNext heq, .inl (by omega)⟩
    · rw [if_neg heq, ends_pure]
      exact ⟨e :: C, hext, hw, .inr hpos⟩

/-- Walking back from anywhere finds the extent before the range, if one is adjacent. -/
theorem freeSpacePrev_spec (hm : OrderedMap ops exts pos) (hwin : Window lo hi)
    {l A C : List (ℕ × ℕ)} {s n s' n' : ℕ} (hw : WidenedIn lo hi l s n (s', n') A C) (fuel : ℕ) {t : τ} (hext : exts t = A ++ C)
    (hfuel : min (pos t) (A ++ C).length < fuel)
    (hpos : 1 ≤ n' ∨ pos t ≤ A.length) :
    Ends (freeSpacePrev ops s' n' fuel) t
      (fun r t' => ∃ A' C', exts t' = A' ++ C' ∧ WidenedIn lo hi l s n r A' C') (fun _ _ => False) := by
  have hbelow := hwin.below
  have hwidth := hwin.width
  induction fuel generalizing t with
  | zero => omega
  | succ fuel ih =>
    unfold freeSpacePrev
    refine Ends.bind (Ends.codeOf ((hm.prev t).mono ?entry ?none))
    case none =>
      rintro _ t' ⟨hret, hext'⟩
      exact ⟨hret, A, C, hext'.trans hext, hw⟩
    case entry =>
      rintro _ t₁ ⟨hext₁, A₁, e, C₁, hsplit, hpos₀, hpos₁, hon⟩
      rw [hext] at hsplit hext₁
      have hmem : e ∈ A ++ C := by simp [hsplit]
      have hpos₂ : min (pos t₁) (A ++ C).length < fuel := by
        rw [hsplit] at hfuel ⊢
        simp only [List.length_append, List.length_cons] at hfuel ⊢
        omega
      have he1 := hw.free.nonempty e hmem
      have he2 := hw.free.bounded e hmem
      have hsum : uint64 (e.1 + e.2) = e.1 + e.2 := Nat.mod_eq_of_lt (by omega)
      have hlen : uint32 e.2 = e.2 := Nat.mod_eq_of_lt (by omega)
      dsimp only
      refine Ends.bind ((ieAddr_spec hon).mpr (Ends.bind ((ieLen_spec hon).mpr ?_)))
      rw [hlen, hsum]
      have hbound : lo ≤ s' ∧ s' + n' ≤ hi := hw.bounded
      rcases List.append_eq_append_iff.mp hsplit with ⟨D, hA₁, hC⟩ | ⟨D, hA, hC₁⟩
      · -- the entry lies behind the range: keep walking
        have heC : e ∈ C := by simp [hC]
        have hbehind : s' + n' ≤ e.1 := hw.behind e heC
        have hlenA : A.length ≤ A₁.length := by simp [hA₁]
        have hn' : 1 ≤ n' := hpos.resolve_right (by omega)
        rw [if_pos (by omega), if_pos (by omega)]
        exact ih hext₁ hpos₂ (.inl hn')
      · cases D with
        | nil =>
          have heC : e ∈ C := by simp at hC₁; simp [← hC₁]
          have hbehind : s' + n' ≤ e.1 := hw.behind e heC
          have hlenA : A.length = A₁.length := by simp [hA]
          have hn' : 1 ≤ n' := hpos.resolve_right (by omega)
          rw [if_pos (by omega), if_pos (by omega)]
          exact ih hext₁ hpos₂ (.inl hn')
        | cons f D =>
          obtain ⟨rfl, hC₁'⟩ := List.cons.inj hC₁
          have heA : e ∈ A := by simp [hA]
          have hbefore : e.1 + e.2 ≤ s' := hw.before e heA
          rw [if_neg (by omega)]
          by_cases heq : e.1 + e.2 = s'
          · -- nothing lies between an adjacent extent and the range
            have hD : D = [] := List.eq_nil_iff_forall_not_mem.mpr fun x hx => by
              have hsep := hw.free.separated
              rw [hA, List.append_assoc, List.cons_append] at hsep
              have h1 := (separated_append_cons.mp hsep).2.2 x (by simp [hx])
              have h2 := hw.before x (by simp [hA, hx])
              have h3 := hw.free.nonempty x (by simp [hA, hx])
              dsimp only at h2
              omega
            subst hD
            have hnew : uint32 (n' + e.2) = n' + e.2 := Nat.mod_eq_of_lt (by omega)
            rw [if_pos heq, hnew]
            refine (hm.remove t₁ A₁ e C₁ (hext₁.trans hsplit) hpos₁ hon).seq fun _ t₂ hext₂ => ?_
            subst hA
            rw [show C₁ = C from hC₁'] at hext₂
            exact ⟨A₁, C, hext₂, hw.mergePrev heq⟩
          · rw [if_neg heq, ends_pure]
            exact ⟨A, C, hext₁, hw⟩

/-- `free_space` between the blocks `lo` and `hi`. -/
theorem freeSpace_window (hm : OrderedMap ops exts pos) (hwin : Window lo hi) {fuel : ℕ}
    (hfuel : hi < fuel) {t : τ} {start cnt : ℕ} (hf : ExtentsIn lo hi (exts t)) (hlo : lo ≤ start)
    (hle : start + cnt ≤ hi) (hdisj : Disjoint (Set.Ico start (start + cnt)) (covered (exts t))) :
    Ends (freeSpace ops fuel start cnt) t
      (fun _ t' => covered (exts t') = covered (exts t) ∪ Set.Ico start (start + cnt) ∧
        Separated (exts t') ∧ (1 ≤ cnt → ExtentsIn lo hi (exts t'))) (fun _ _ => False) := by
  have hbelow := hwin.below
  obtain ⟨A, B, C, hABC, hA, hB, hC⟩ :=
    exists_split _ (hf.extentOrd_monotone (by omega) start cnt)
  have hB0 : B ≠ [] → cnt = 0 := by
    intro hne
    obtain ⟨e, he⟩ := List.exists_mem_of_ne_nil B hne
    have hmem : e ∈ exts t := by simp [hABC, he]
    have hzero := hB e he
    have h1 := hf.nonempty e hmem
    have h2 := hf.bounded e hmem
    unfold extentOrd uint64 at hzero
    by_contra hpos
    have hboth : max e.1 start < start + cnt ∧ max e.1 start < e.1 + e.2 := by
      split_ifs at hzero <;> omega
    exact Set.disjoint_left.mp hdisj ⟨le_max_right _ _, hboth.1⟩ ⟨e, hmem, le_max_left _ _, hboth.2⟩
  unfold freeSpace
  refine Ends.bind (Ends.codeOf
    ((hm.search t start cnt A B C (by omega) (by omega) hABC hA hB hC).mono ?found ?notFound))
  case found =>
    -- an overlap with a disjoint range: the range is empty and nothing changes
    rintro _ t' ⟨hext, B₁, e, B₂, hBe, -, -⟩
    have hcnt : cnt = 0 := hB0 (by simp [hBe])
    rw [ends_pure, hext, hcnt]
    exact ⟨by simp, hf.separated, fun h => absurd h (by omega)⟩
  case notFound =>
    rintro ret t₁ ⟨rfl, rfl, hext₁, hpos₁, hend, hhead⟩
    rw [List.append_nil] at hABC
    have hw : WidenedIn lo hi (exts t) start cnt (start, cnt) A C := by
      rw [hABC] at hf ⊢
      refine ⟨hf, fun x hx => ?_, fun x hx => ?_, ⟨hlo, hle⟩, le_rfl, rfl⟩
      · have h1 := hA x hx
        have h2 := hf.bounded x (by simp [hx])
        unfold extentOrd uint64 at h1
        split_ifs at h1 <;> omega
      · have h1 := hC x hx
        unfold extentOrd uint64 at h1
        split_ifs at h1 <;> omega
    refine ⟨rfl, ?_⟩
    dsimp only
    rw [if_neg (by simp)]
    refine (freeSpaceNext_spec hm (hext₁.trans hABC) hwin hw hpos₁ hend hhead).seq ?_
    rintro n' t₂ ⟨C₂, hext₂, hw₂, hpos₂⟩
    have hlen : (A ++ C₂).length ≤ hi :=
      length_le_of_bounded hw₂.free.separated hw₂.free.nonempty fun e he => (hw₂.free.bounded e he).2
    refine (freeSpacePrev_spec hm hwin hw₂ fuel hext₂ (by omega) (hpos₂.imp_right le_of_eq)).seq ?_
    rintro ⟨s', n''⟩ t₃ ⟨A₃, C₃, hext₃, hw₃⟩
    refine (insertExtent_spec hm hext₃ hw₃.free hwin hw₃.before hw₃.behind hw₃.bounded.2).mono ?_
      fun _ _ h => h
    intro _ t₄ hext₄
    rw [hext₄, covered_insert]
    refine ⟨hw₃.covered_eq, separated_insert hw₃.free.separated hw₃.before hw₃.behind, fun hcnt => ?_⟩
    exact hw₃.free.insert hw₃.before hw₃.behind (hcnt.trans hw₃.count) hw₃.bounded.1 hw₃.bounded.2

/-- `free_space` adds exactly the freed range. -/
theorem freeSpace_spec (hm : OrderedMap ops exts pos) {fuel : ℕ} (hfuel : 2 ^ 31 < fuel) {t : τ}
    {start cnt : ℕ} (hf : FreeExtents (exts t)) (hle : start + cnt ≤ 2 ^ 31)
    (hdisj : Disjoint (Set.Ico start (start + cnt)) (covered (exts t))) :
    Ends (freeSpace ops fuel start cnt) t
      (fun _ t' => covered (exts t') = covered (exts t) ∪ Set.Ico start (start + cnt) ∧
        Separated (exts t') ∧ (1 ≤ cnt → FreeExtents (exts t'))) (fun _ _ => False) :=
  freeSpace_window hm window_two_pow_31 hfuel hf (Nat.zero_le _) hle hdisj

end Proofs

end IndexFs.Space
