import IndexFs.Lib.Rank
import IndexFs.Tree.RawCursor

/-!
# Walks and searches end

Whatever the blocks hold, the loops of `search_key_internal`, `index_walk_all` and
`index_get_total_key` end. A move within a block is strict, forwards because an entry
of length zero is refused and backwards because one with `prev_len` zero ends the
block, and there are at most `TREE_MAX_DEPTH` levels; so each call of `walk_tree` that
succeeds leaves a stack of positions with a larger rank (forwards) or a smaller one
(backwards).

Results:

* `walkTree_next`, `walkTree_prev`: one call of `walk_tree`, and the rank of the stack.
* `raw_loops_return`: the loops end with a result, with a code, or at a failing `ASSERT`.
* `search_aborts`: a search that comes to an entry without a key.
-/

namespace IndexFs.Raw

open IndexFs.Framing (Mem)
open IndexFs.Tree (PrevResult)

/-! ## What stays the same -/

/-- The cursor with another list of accesses. -/
def Cursor.reading (c : Cursor) (reads : List Access) : Cursor := { c with reads }

/-- The cursor at another entry. -/
def Cursor.moveTo (c : Cursor) (ie : EntryPtr) (position : ℕ) : Cursor := { c with ie, position }

section Updates

variable {c : Cursor} {r : List Access} {p : EntryPtr} {pos : ℕ}

@[simp] theorem reading_levels : (c.reading r).levels = c.levels := rfl

@[simp] theorem reading_cache : (c.reading r).cache = c.cache := rfl

@[simp] theorem reading_position : (c.reading r).position = c.position := rfl

@[simp] theorem reading_ie : (c.reading r).ie = c.ie := rfl

@[simp] theorem moveTo_levels : (c.moveTo p pos).levels = c.levels := rfl

@[simp] theorem moveTo_cache : (c.moveTo p pos).cache = c.cache := rfl

@[simp] theorem moveTo_position : (c.moveTo p pos).position = pos := rfl

@[simp] theorem moveTo_ie : (c.moveTo p pos).ie = p := rfl

end Updates

/-- The positions of the cursor, that in the current block first. -/
def Cursor.stack (c : Cursor) : List ℕ := c.position :: c.levels.map Level.position

@[simp] theorem reading_stack {c : Cursor} {r : List Access} : (c.reading r).stack = c.stack := rfl

/-- What holds between the steps of a walk. Backwards the entry may lie before the block, and its position,
the difference of two numbers of 32 bits, far behind it. -/
structure Inv (back : Bool) (c : Cursor) : Prop where
  depth : c.levels.length < treeMaxDepth
  levels : ∀ l ∈ c.levels, l.position < 2 ^ 32
  position : c.position < 2 ^ 32
  cache : ∃ k, c.cache = some k
  ie : c.ie.off = c.position ∨ back = true ∧ c.ie.off < beginEntryOff

/-- The error is a code, or a failing `ASSERT`. -/
def Quits (e : ErrorCode) : Prop := e.stops = false ∨ e = .assertion

variable {c c' : Cursor} {back : Bool} {tree : RawTree} {flags : WalkFlags} {fuel : ℕ}

theorem Inv.reading (h : Inv back c) (r : List Access) : Inv back (c.reading r) :=
  ⟨h.depth, h.levels, h.position, h.cache, h.ie⟩

theorem Inv.moveTo (h : Inv back c) {p : EntryPtr} {pos : ℕ} (hpos : pos < 2 ^ 32) (hp : p.off = pos) :
    Inv back (c.moveTo p pos) :=
  ⟨h.depth, h.levels, hpos, h.cache, .inl hp⟩

theorem Inv.stack_lt (h : Inv back c) : ∀ p ∈ c.stack, p < 2 ^ 32 := by
  intro p hp
  unfold Cursor.stack at hp
  rcases List.mem_cons.mp hp with rfl | hp
  · exact h.position
  · obtain ⟨l, hl, rfl⟩ := List.mem_map.mp hp
    exact h.levels l hl

theorem Inv.stack_length (h : Inv back c) : c.stack.length ≤ treeMaxDepth := by
  have hdepth := h.depth
  unfold Cursor.stack
  rw [List.length_cons, List.length_map]
  omega

/-- The rank of a stack of positions. -/
def stackRank (s : List ℕ) : ℕ := rank (2 ^ 32 + 1) treeMaxDepth s

/-! ## Fields -/

/-- `ie->flags`, `ie->len` and `ie->prev_len`. -/
def flagsAt (p : EntryPtr) : EntryFlags := flagsOf (readLe p.ib (p.off + 8) 1)

def lenAt (p : EntryPtr) : ℕ := readLe p.ib p.off 2

def prevLenAt (p : EntryPtr) : ℕ := readLe p.ib (p.off + 2) 2

section Fields

variable {Q : ℕ → Cursor → Prop} {F : ErrorCode → Cursor → Prop} {p : EntryPtr} {ib : Mem}

theorem ends_ieFlags {Q : EntryFlags → Cursor → Prop} : Ends (ieFlags p) c Q F ↔
    Q (flagsAt p) (c.reading (.block p.ib (p.off + 8) 1 :: c.reads)) := Iff.rfl

theorem ends_ieLen : Ends (ieLen p) c Q F ↔ Q (lenAt p) (c.reading (.block p.ib p.off 2 :: c.reads)) := Iff.rfl

theorem ends_iePrevLen : Ends (iePrevLen p) c Q F ↔
    Q (prevLenAt p) (c.reading (.block p.ib (p.off + 2) 2 :: c.reads)) := Iff.rfl

theorem ends_getRealSize : Ends (getRealSize ib) c Q F ↔
    Q (Framing.realSize ib) (c.reading (.block ib 8 4 :: c.reads)) := Iff.rfl

theorem ends_firstEntryOff : Ends (firstEntryOff ib) c Q F ↔
    Q (readLe ib 16 2) (c.reading (.block ib 16 2 :: c.reads)) := Iff.rfl

theorem ends_isLarge {Q : Bool → Cursor → Prop} : Ends (isLarge ib) c Q F ↔
    Q ((readLe ib 18 1).testBit 0) (c.reading (.block ib 18 1 :: c.reads)) := Iff.rfl

theorem ends_ieKeyLen : Ends (ieKeyLen p) c Q F ↔
    Q (readLe p.ib (p.off + 4) 2) (c.reading (.block p.ib (p.off + 4) 2 :: c.reads)) := Iff.rfl

theorem ends_ieValueLen : Ends (ieValueLen p) c Q F ↔
    Q (readLe p.ib (p.off + 6) 2) (c.reading (.block p.ib (p.off + 6) 2 :: c.reads)) := Iff.rfl

theorem ends_ieVbn : Ends (ieVbn p) c Q F ↔ Q (readLe p.ib (p.off + lenAt p - vbnSize) 8)
    ((c.reading (.block p.ib p.off 2 :: c.reads)).reading
      (.block p.ib (p.off + lenAt p - vbnSize) 8 :: .block p.ib p.off 2 :: c.reads)) := Iff.rfl

theorem ends_getCache {k : Cache} (h : c.cache = some k) {Q : Cache → Cursor → Prop} :
    Ends getCache c Q F ↔ Q k c := by
  unfold getCache
  rw [ends_bind, ends_get, h]
  rfl

theorem ends_setEntry {position : ℕ} {Q : Unit → Cursor → Prop} : Ends (setEntry p position) c Q F ↔
    Q () (c.moveTo p position) := Iff.rfl

theorem realSize_lt (ib : Mem) : Framing.realSize ib < 2 ^ 32 := readLe_lt ib 8 4

end Fields

/-! ## Moves in a block -/

/-- `get_next_ie` moves on, since an entry of length zero is refused. -/
theorem getNextIe_ends (h : Inv false c) : Ends getNextIe c
    (fun _ c' => Inv false c' ∧ c'.levels = c.levels ∧ c.position < c'.position) (fun e _ => Quits e) := by
  obtain ⟨k, hk⟩ := h.cache
  have hie : c.ie.off = c.position := h.ie.resolve_right (by simp)
  have hpos := h.position
  have hlen : lenAt c.ie < 2 ^ 16 := readLe_lt _ _ 2
  have hnew : uint64 (c.position + lenAt c.ie) = c.position + lenAt c.ie := Nat.mod_eq_of_lt (by omega)
  unfold getNextIe
  rw [ends_bind, ends_get, ends_bind, ends_ieFlags]
  split_ifs
  · exact .inl rfl
  rw [ends_bind, ends_ieLen, ends_bind, ends_setEntry, hnew, ends_bind]
  refine Iff.mpr (ends_getCache (by exact hk)) ?_
  rw [ends_bind, ends_getRealSize]
  have hreal := realSize_lt k.ib
  dsimp only
  split_ifs with hend
  · exact .inl rfl
  rw [ends_bind, ends_ieLen]
  split_ifs with hzero
  · exact .inl rfl
  -- a length of zero would be seen again at the new entry, which is the same one
  have hne : lenAt c.ie ≠ 0 := by
    intro h0
    apply hzero
    rw [h0]
    simpa [lenAt] using h0
  refine ⟨(((h.reading _).moveTo (by omega) ?_).reading _).reading _, rfl, ?_⟩
  · push_cast
    omega
  · show c.position < c.position + lenAt c.ie
    omega

theorem uint64Sub_of_le {a b : ℕ} (hle : b ≤ a) (ha : a < 2 ^ 64) : uint64Sub a b = a - b := by
  unfold uint64Sub
  omega

/-- `get_prev_ie` moves back to an entry, or comes to a BEGIN entry, or stays on one. -/
theorem getPrevIe_ends (h : Inv true c) : Ends getPrevIe c
    (fun r c' => Inv true c' ∧ c'.levels = c.levels ∧ c'.position ≤ c.position ∧
      (r = .entry → c'.position < c.position) ∧ (r = .gettoBegin → (flagsAt c'.ie).isBegin = true))
    (fun e _ => Quits e) := by
  obtain ⟨k, hk⟩ := h.cache
  have hpos := h.position
  unfold getPrevIe
  rw [ends_bind, ends_get, ends_bind, ends_iePrevLen]
  dsimp only
  rw [ends_bind, ends_setEntry, ends_bind]
  -- the numbers of 64 bits are kept out of the checks of equality
  obtain ⟨pos, hnew⟩ : ∃ pos, pos = uint64Sub c.position (prevLenAt c.ie) := ⟨_, rfl⟩
  rw [← hnew, ends_getCache (k := k) (by simpa using hk)]
  split_ifs with hlow
  · exact .inl rfl
  -- within the block the position is the offset
  have hle : (beginEntryOff : ℤ) ≤ c.ie.off - prevLenAt c.ie := not_lt.mp hlow
  have hie : c.ie.off = c.position := h.ie.resolve_right fun hback => by have := hback.2; omega
  have hsub : pos = c.position - prevLenAt c.ie := by
    rw [hnew]
    exact uint64Sub_of_le (by omega) (by omega)
  clear hnew
  have hinv : ∀ r, Inv true ((c.reading r).moveTo ⟨c.ie.ib, c.ie.off - prevLenAt c.ie⟩ pos) := by
    intro r
    refine (h.reading r).moveTo (by omega) ?_
    show c.ie.off - (prevLenAt c.ie : ℤ) = pos
    omega
  rw [ends_bind, ends_iePrevLen]
  split_ifs with hzero
  · rw [ends_bind, ends_ieFlags]
    split_ifs with hbegin
    · refine ⟨((hinv _).reading _).reading _, rfl, ?_, by simp, fun _ => hbegin⟩
      show pos ≤ c.position
      omega
    · exact .inl rfl
  · -- a `prev_len` of zero would be seen again at the same entry
    have hne : prevLenAt c.ie ≠ 0 := by
      intro h0
      apply hzero
      rw [h0]
      simpa [prevLenAt] using h0
    refine ⟨(hinv _).reading _, rfl, ?_, fun _ => ?_, by simp⟩
    · show pos ≤ c.position
      omega
    · show pos < c.position
      omega

/-- `get_last_ie` stays in front of the block if that is too short for an entry. -/
theorem getLastIe_ends {k : Cache} (hk : c.cache = some k) (hdepth : c.levels.length < treeMaxDepth)
    (hlevels : ∀ l ∈ c.levels, l.position < 2 ^ 32) : Ends getLastIe c
    (fun _ c' => Inv true c' ∧ c'.levels = c.levels) (fun _ _ => False) := by
  unfold getLastIe
  rw [ends_bind, ends_getCache hk]
  dsimp only
  rw [ends_bind, ends_isLarge]
  generalize hlen : (if (readLe k.ib 18 1).testBit 0 = true then entrySize + vbnSize else entrySize) = len
  rw [ends_bind, ends_getRealSize]
  have hle : len ≤ entrySize + vbnSize := by
    rw [← hlen]
    split_ifs <;> decide
  have hreal := realSize_lt k.ib
  obtain ⟨pos, hpos⟩ : ∃ pos, pos = uint32 (Framing.realSize k.ib + 2 ^ 32 - len) := ⟨_, rfl⟩
  rw [← hpos, ends_setEntry]
  have hlt : pos < 2 ^ 32 := hpos ▸ Nat.mod_lt _ (by norm_num)
  have hoff : ((Framing.realSize k.ib : ℤ) - len = pos) ∨ (Framing.realSize k.ib : ℤ) - len < beginEntryOff := by
    rw [hpos]
    unfold uint32
    have hentry : entrySize + vbnSize = 17 := rfl
    have hbegin : beginEntryOff = 24 := rfl
    omega
  clear hpos
  refine ⟨⟨hdepth, hlevels, hlt, ⟨k, hk⟩, ?_⟩, rfl⟩
  exact hoff.imp id fun h => ⟨rfl, h⟩

theorem getFirstIe_ends {b : Bool} {k : Cache} (hk : c.cache = some k) (hdepth : c.levels.length < treeMaxDepth)
    (hlevels : ∀ l ∈ c.levels, l.position < 2 ^ 32) : Ends getFirstIe c
    (fun _ c' => Inv b c' ∧ c'.levels = c.levels) (fun _ _ => False) := by
  unfold getFirstIe
  rw [ends_bind, ends_getCache hk]
  dsimp only
  rw [ends_bind, ends_firstEntryOff, ends_setEntry]
  have hlt : readLe k.ib 16 2 < 2 ^ 16 := readLe_lt _ _ 2
  refine ⟨⟨hdepth, hlevels, ?_, ⟨k, hk⟩, .inl rfl⟩, rfl⟩
  show readLe k.ib 16 2 < 2 ^ 32
  omega

/-! ## Moves between blocks -/

/-- What lies outside the cursor fails with a code. -/
structure Codes (tree : RawTree) : Prop where
  block : ∀ vbn e, tree.block vbn = .error e → e.stops = false
  freeBlock : ∀ vbn e, tree.freeBlock vbn = .error e → e.stops = false

theorem indexBlockRead_ends (ht : Codes tree) {k : Cache} (hk : c.cache = some k) {vbn : ℕ} :
    Ends (indexBlockRead tree vbn) c
      (fun _ c' => c'.levels = c.levels ∧ c'.position = c.position ∧ ∃ k', c'.cache = some k')
      (fun e _ => Quits e) := by
  unfold indexBlockRead
  rw [ends_bind, ends_getCache hk]
  split_ifs with hvbn
  · exact ⟨rfl, rfl, k, hk⟩
  · cases hb : tree.block vbn with
    | ok ib => exact ⟨rfl, rfl, _, rfl⟩
    | error e => exact .inl (ht.block vbn e hb)

/-- `push_cache_stack` puts a position on the stack. -/
theorem pushCacheStack_ends (ht : Codes tree) (hback : back = true ↔ flags.getLast ∨ flags.getPrev) (h : Inv back c) :
    Ends (pushCacheStack tree flags) c (fun _ c' => Inv back c' ∧ ∃ q, c'.stack = q :: c.stack)
      (fun e _ => Quits e) := by
  obtain ⟨k, hk⟩ := h.cache
  unfold pushCacheStack
  rw [ends_bind, ends_get]
  by_cases hdeep : c.levels.length ≥ treeMaxDepth - 1
  · rw [if_pos hdeep]
    exact .inl rfl
  rw [if_neg hdeep, ends_bind, ends_ieVbn, ends_bind, ends_getCache (k := k) (by simpa using hk), ends_bind]
  refine (indexBlockRead_ends ht (c := (c.reading _).reading _) (by simpa using hk)).mono
    (fun _ c₁ h₁ => ?_) fun _ _ he => he
  obtain ⟨hlevels, hpos, k', hk'⟩ := h₁
  have hmove : ∀ c₂ : Cursor, c₂.cache = some k' → c₂.levels = ⟨k, c.position⟩ :: c.levels →
      Ends (if flags.getLast ∨ flags.getPrev then getLastIe else getFirstIe) c₂
        (fun _ c' => Inv back c' ∧ ∃ q, c'.stack = q :: c.stack) fun e _ => Quits e := by
    intro c₂ hcache hstack
    have hdepth : c₂.levels.length < treeMaxDepth := by
      rw [hstack, List.length_cons]
      omega
    have hlow : ∀ l ∈ c₂.levels, l.position < 2 ^ 32 := by
      rw [hstack]
      exact List.forall_mem_cons.mpr ⟨h.position, h.levels⟩
    have hpush : ∀ c' : Cursor, c'.levels = c₂.levels → c'.stack = c'.position :: c.stack := by
      intro c' hc'
      unfold Cursor.stack
      rw [hc', hstack]
      rfl
    split_ifs with hflags
    · obtain rfl := hback.mpr hflags
      exact (getLastIe_ends hcache hdepth hlow).mono (fun _ c' h' => ⟨h'.1, _, hpush c' h'.2⟩) fun _ _ => False.elim
    · exact (getFirstIe_ends hcache hdepth hlow).mono (fun _ c' h' => ⟨h'.1, _, hpush c' h'.2⟩) fun _ _ => False.elim
  rw [ends_bind, ends_modify, ends_bind, ends_get, ends_bind, ends_getCache (k := k') (by exact hk'), ends_bind,
    ends_isLarge]
  simp only [reading_levels, reading_position] at hlevels hpos
  dsimp only
  by_cases hlarge : ¬ (readLe k'.ib 18 1).testBit 0 = true
  · rw [if_pos hlarge, ends_bind, ends_modify]
    exact hmove _ hk' (by simp [Cursor.reading, hlevels, hpos])
  · rw [if_neg hlarge]
    exact hmove _ hk' (by simp [Cursor.reading, hlevels, hpos])

/-- The cursor goes back to the entry it came from. -/
theorem Inv.pop (h : Inv back c) {l : Level} {ls : List Level} (hl : c.levels = l :: ls) :
    Inv back { c with
      levels := ls, cache := some l.cache, position := l.position, ie := ⟨l.cache.ib, l.position⟩ } := by
  have hdepth := h.depth
  rw [hl, List.length_cons] at hdepth
  have hlevels := h.levels
  rw [hl] at hlevels
  obtain ⟨hpos, hrest⟩ := List.forall_mem_cons.mp hlevels
  exact ⟨Nat.lt_of_succ_lt hdepth, hrest, hpos, ⟨_, rfl⟩, .inl rfl⟩

theorem popCacheStack_ends (hprev : flags.getPrev = false) (h : Inv back c) : Ends (popCacheStack flags) c
    (fun _ c' => Inv back c' ∧ c.stack = c.position :: c'.stack ∧ c'.levels.length < c.levels.length)
    (fun e _ => Quits e) := by
  unfold popCacheStack
  rw [ends_bind, ends_get]
  cases hl : c.levels with
  | nil => exact .inl rfl
  | cons l ls =>
    dsimp only
    rw [ends_bind, ends_modify, hprev]
    refine ⟨h.pop hl, ?_, Nat.lt_succ_self _⟩
    unfold Cursor.stack
    rw [hl]
    rfl

/-- Backwards it goes on to the entry before that one. -/
theorem popCacheStack_prev (hprev : flags.getPrev = true) (h : Inv true c) : Ends (popCacheStack flags) c
    (fun r c' => Inv true c' ∧ (∃ l, c.levels = l :: c'.levels ∧ c'.position ≤ l.position ∧
      (r = .entry → c'.position < l.position)) ∧ (r = .gettoBegin → (flagsAt c'.ie).isBegin = true))
    (fun e _ => Quits e) := by
  unfold popCacheStack
  rw [ends_bind, ends_get]
  cases hl : c.levels with
  | nil => exact .inl rfl
  | cons l ls =>
    dsimp only
    rw [ends_bind, ends_modify, hprev]
    refine (getPrevIe_ends (h.pop hl)).mono (fun r c' h' => ?_) fun _ _ he => he
    obtain ⟨hinv, hlevels, hle, hlt, hbegin⟩ := h'
    exact ⟨hinv, ⟨l, by rw [hlevels], hle, hlt⟩, hbegin⟩

/-- The first loop of `get_current_ie` puts positions on the stack, as many as there are levels at most. -/
theorem descend_ends (ht : Codes tree) (hback : back = true ↔ flags.getLast ∨ flags.getPrev) (h : Inv back c)
    (hfuel : treeMaxDepth < c.levels.length + fuel) : Ends (descend tree flags fuel) c
      (fun _ c' => Inv back c' ∧ ∃ qs, c'.stack = qs ++ c.stack ∧ ((flagsAt c.ie).isNode = true → qs ≠ []) ∧
        (qs = [] → c'.ie = c.ie))
      (fun e _ => Quits e) := by
  induction fuel generalizing c with
  | zero =>
    have hdepth := h.depth
    omega
  | succ fuel ih =>
    unfold descend
    rw [ends_bind, ends_get, ends_bind, ends_ieFlags]
    split_ifs with hnode
    · rw [ends_bind]
      refine (pushCacheStack_ends ht hback (h.reading _)).mono (fun _ c₁ h₁ => ?_) fun _ _ he => he
      obtain ⟨hinv, q, hstack⟩ := h₁
      have hlen := congrArg List.length hstack
      simp only [Cursor.stack, List.length_cons, List.length_map, reading_levels] at hlen
      refine (ih hinv (by omega)).mono (fun _ c' h' => ?_) fun _ _ he => he
      obtain ⟨hinv', qs, hqs, -⟩ := h'
      refine ⟨hinv', qs ++ [q], ?_, by simp, by simp⟩
      rw [hqs, hstack, reading_stack, List.append_assoc, List.singleton_append]
    · exact ⟨h.reading _, [], rfl, fun h => absurd h hnode, fun _ => rfl⟩

theorem addOrRemoveIb_ends (ht : Codes tree) (h : Inv back c) : Ends (addOrRemoveIb tree flags) c
    (fun _ c' => c' = c) (fun e _ => Quits e) := by
  obtain ⟨k, hk⟩ := h.cache
  unfold addOrRemoveIb
  split_ifs
  · rw [ends_bind, ends_getCache hk]
    cases hf : tree.freeBlock k.vbn with
    | ok u => rfl
    | error e => exact .inl (ht.freeBlock _ e hf)
  · rfl

/-- Forwards the second loop takes positions off the stack. -/
theorem ascend_next (ht : Codes tree) (hlast : flags.getLast = false) (hprev : flags.getPrev = false)
    (h : Inv back c) (hfuel : c.levels.length < fuel) : Ends (ascend tree flags fuel) c
      (fun _ c' => Inv back c' ∧ ∃ qs, c.stack = qs ++ c'.stack) (fun e _ => Quits e) := by
  induction fuel generalizing c with
  | zero => exact absurd hfuel (Nat.not_lt_zero _)
  | succ fuel ih =>
    unfold ascend
    rw [ends_bind, ends_get, ends_bind, ends_ieFlags]
    have hforward : ¬ (flags.getLast = true ∨ flags.getPrev = true) := by simp [hlast, hprev]
    split_ifs with hend
    · rw [ends_bind]
      refine (addOrRemoveIb_ends ht (h.reading _)).mono (fun _ c₁ h₁ => ?_) fun _ _ he => he
      subst h₁
      rw [ends_bind]
      refine (popCacheStack_ends hprev (h.reading _)).mono (fun _ c₂ h₂ => ?_) fun _ _ he => he
      obtain ⟨hinv, hstack, hlen⟩ := h₂
      rw [reading_levels] at hlen
      refine (ih hinv (by omega)).mono (fun _ c' h' => ?_) fun _ _ he => he
      obtain ⟨hinv', qs, hqs⟩ := h'
      refine ⟨hinv', c.position :: qs, ?_⟩
      rw [List.cons_append, ← hqs]
      exact hstack
    · exact ⟨h.reading _, [], rfl⟩

/-- One position, and those below it, are left; the first is smaller than it was. -/
def Below (s s' : List ℕ) : Prop := ∃ qs p p' ps, s = qs ++ p :: ps ∧ s' = p' :: ps ∧ p' < p

theorem Below.cons {s s' : List ℕ} (h : Below s s') (q : ℕ) : Below (q :: s) s' := by
  obtain ⟨qs, p, p', ps, hs, hs', hlt⟩ := h
  exact ⟨q :: qs, p, p', ps, by rw [hs, List.cons_append], hs', hlt⟩

/-- A larger number on top makes no difference. -/
theorem Below.raise {p q : ℕ} {l s' : List ℕ} (h : Below (p :: l) s') (hle : p ≤ q) : Below (q :: l) s' := by
  obtain ⟨qs, p₁, p', ps, hs, hs', hlt⟩ := h
  cases qs with
  | nil =>
    obtain ⟨rfl, rfl⟩ := List.cons.inj hs
    exact ⟨[], q, p', _, rfl, hs', by omega⟩
  | cons q' qs =>
    obtain ⟨-, hl⟩ := List.cons.inj hs
    exact ⟨q :: qs, p₁, p', ps, by rw [hl]; rfl, hs', hlt⟩

/-- Backwards it leaves an entry that is neither END nor BEGIN, or goes down in the order of stacks. -/
theorem ascend_prev (ht : Codes tree) (hprev : flags.getPrev = true) (hentry : flags.getLastEntry = false)
    (h : Inv true c) (hfuel : c.levels.length < fuel) : Ends (ascend tree flags fuel) c
      (fun _ c' => Inv true c' ∧ (Below c.stack c'.stack ∨
        c'.stack = c.stack ∧ (flagsAt c.ie).isBegin = false)) (fun e _ => Quits e) := by
  induction fuel generalizing c with
  | zero => exact absurd hfuel (Nat.not_lt_zero _)
  | succ fuel ih =>
    unfold ascend
    rw [ends_bind, ends_get, ends_bind, ends_ieFlags]
    split_ifs with hend hback hentry'
    · rw [ends_bind]
      refine (addOrRemoveIb_ends ht (h.reading _)).mono (fun _ c₁ h₁ => ?_) fun _ _ he => he
      exact absurd hentry' (by simp [hentry])
    · rw [ends_bind]
      refine (addOrRemoveIb_ends ht (h.reading _)).mono (fun _ c₁ h₁ => ?_) fun _ _ he => he
      subst h₁
      rw [ends_bind]
      refine (getPrevIe_ends (h.reading _)).mono (fun r c₂ h₂ => ?_) fun _ _ he => he
      obtain ⟨hinv, hlevels, hle, hlt, -⟩ := h₂
      rw [reading_levels] at hlevels
      rw [reading_position] at hle hlt
      cases r with
      | entry =>
        refine ⟨hinv, .inl ⟨[], c.position, c₂.position, c.levels.map Level.position, rfl, ?_, hlt rfl⟩⟩
        unfold Cursor.stack
        rw [hlevels]
      | gettoBegin =>
        dsimp only
        rw [ends_bind]
        refine (popCacheStack_prev hprev hinv).mono (fun r c₃ h₃ => ?_) fun _ _ he => he
        obtain ⟨hinv₃, ⟨l, hl, hle₃, hlt₃⟩, hbegin⟩ := h₃
        rw [hlevels] at hl
        -- the stack before and after the pop
        have hstack : c.stack = c.position :: l.position :: c₃.levels.map Level.position := by
          unfold Cursor.stack
          rw [hl]
          rfl
        have hlen : c.levels.length = c₃.levels.length + 1 := by rw [hl, List.length_cons]
        refine (ih hinv₃ (by omega)).mono (fun _ c' h' => ?_) fun _ _ he => he
        obtain ⟨hinv', hbelow | ⟨hsame, hno⟩⟩ := h'
        · exact ⟨hinv', .inl (hstack ▸ (hbelow.raise hle₃).cons _)⟩
        · cases r with
          | entry => exact ⟨hinv', .inl ⟨[c.position], l.position, c₃.position, _, hstack, hsame, hlt₃ rfl⟩⟩
          | gettoBegin => exact absurd (hbegin rfl) (by simp [hno])
    · exact absurd (.inr hprev) hback
    · rw [not_or] at hend
      exact ⟨h.reading _, .inr ⟨rfl, by simpa using hend.2⟩⟩

theorem ascend_last (ht : Codes tree) (hlast : flags.getLast = true) (hprev : flags.getPrev = false)
    (h : Inv true c) (hfuel : c.levels.length < fuel) : Ends (ascend tree flags fuel) c
      (fun _ c' => Inv true c') (fun e _ => Quits e) := by
  induction fuel generalizing c with
  | zero => exact absurd hfuel (Nat.not_lt_zero _)
  | succ fuel ih =>
    unfold ascend
    rw [ends_bind, ends_get, ends_bind, ends_ieFlags]
    split_ifs with hend hback hentry
    · rw [ends_bind]
      refine (addOrRemoveIb_ends ht (h.reading _)).mono (fun _ c₁ h₁ => ?_) fun _ _ he => he
      subst h₁
      exact h.reading _
    · rw [ends_bind]
      refine (addOrRemoveIb_ends ht (h.reading _)).mono (fun _ c₁ h₁ => ?_) fun _ _ he => he
      subst h₁
      rw [ends_bind]
      refine (getPrevIe_ends (h.reading _)).mono (fun r c₂ h₂ => ?_) fun _ _ he => he
      obtain ⟨hinv, hlevels, -⟩ := h₂
      rw [reading_levels] at hlevels
      cases r with
      | entry => exact hinv
      | gettoBegin =>
        dsimp only
        rw [ends_bind]
        refine (popCacheStack_ends hprev hinv).mono (fun _ c₃ h₃ => ?_) fun _ _ he => he
        obtain ⟨hinv₃, -, hlen⟩ := h₃
        rw [hlevels] at hlen
        exact ih hinv₃ (by omega)
    · exact absurd (.inl hlast) hback
    · exact h.reading _

/-! ## One call of `walk_tree` -/

theorem Below.rank_lt {s s' : List ℕ} (h : Below s s') (hlen : s.length ≤ treeMaxDepth) : stackRank s' < stackRank s := by
  obtain ⟨qs, p, p', ps, rfl, rfl, hlt⟩ := h
  rw [List.length_append, List.length_cons] at hlen
  exact rank_lt_of_top (Nat.succ_pos _) hlt (by omega)

theorem Inv.rank_extend (h : Inv back c) {qs s : List ℕ} (hs : c.stack = qs ++ s) : stackRank c.stack ≤ stackRank s := by
  have hlen := h.stack_length
  have hlt := h.stack_lt
  rw [hs] at hlen hlt ⊢
  exact IndexFs.rank_extend (fun p hp => (hlt p (List.mem_append_left _ hp)).trans (Nat.lt_succ_self _)) hlen

theorem Inv.rank_push (h : Inv back c) {qs s : List ℕ} (hs : c.stack = qs ++ s) (hne : qs ≠ []) :
    stackRank c.stack < stackRank s := by
  obtain hnil | ⟨above, q, rfl⟩ := List.eq_nil_or_concat' qs
  · exact absurd hnil hne
  have hlen := h.stack_length
  have hlt := h.stack_lt
  rw [List.append_assoc, List.singleton_append] at hs
  refine (h.rank_extend hs).trans_lt (IndexFs.rank_push ?_ ?_)
  · have := hlt q (by rw [hs]; simp)
    omega
  · rw [hs, List.length_append, List.length_cons] at hlen
    omega

/-- No rank is larger. -/
def rankBound : ℕ := (2 ^ 32 + 1) ^ treeMaxDepth

theorem Inv.rank_le (h : Inv back c) : stackRank c.stack ≤ rankBound :=
  rank_le_pow (fun p hp => (h.stack_lt p hp).trans (Nat.lt_succ_self _)) h.stack_length

theorem getCurrentIe_next (ht : Codes tree) (hlast : flags.getLast = false) (hprev : flags.getPrev = false)
    (h : Inv false c) (hfuel : treeMaxDepth < fuel) : Ends (getCurrentIe tree flags fuel) c
      (fun _ c' => Inv false c' ∧ ∃ qs, stackRank (qs ++ c.stack) ≤ stackRank c'.stack) (fun e _ => Quits e) := by
  unfold getCurrentIe
  rw [ends_bind]
  refine (descend_ends ht (by simp [hlast, hprev]) h (by omega)).mono (fun _ c₁ h₁ => ?_) fun _ _ he => he
  obtain ⟨hinv, qs, hqs, -⟩ := h₁
  have hdepth := hinv.depth
  refine (ascend_next ht hlast hprev hinv (by omega)).mono (fun _ c' h' => ?_) fun _ _ he => he
  obtain ⟨hinv', qs', hqs'⟩ := h'
  exact ⟨hinv', qs, hqs ▸ hinv.rank_extend hqs'⟩

/-- Forwards the rank of the stack grows. -/
theorem walkTree_next (ht : Codes tree) {remove : Bool} (h : Inv false c) (hfuel : treeMaxDepth < fuel) :
    Ends (walkTree tree { removeBlock := remove } fuel) c
      (fun _ c' => Inv false c' ∧ stackRank c.stack < stackRank c'.stack) (fun e _ => Quits e) := by
  unfold walkTree
  rw [ends_bind, ends_assertThat]
  refine ⟨fun _ => ?_, fun _ => .inr rfl⟩
  show Ends (getNextIe >>= fun _ => getCurrentIe tree { removeBlock := remove } fuel) c _ _
  rw [ends_bind]
  refine (getNextIe_ends h).mono (fun _ c₁ h₁ => ?_) fun _ _ he => he
  obtain ⟨hinv, hlevels, hlt⟩ := h₁
  refine (getCurrentIe_next ht rfl rfl hinv hfuel).mono (fun _ c' h' => ?_) fun _ _ he => he
  obtain ⟨hinv', qs, hle⟩ := h'
  have hlen := h.stack_length
  refine ⟨hinv', lt_of_lt_of_le ?_ hle⟩
  unfold Cursor.stack at hlen ⊢
  rw [hlevels]
  exact rank_lt_of_top (Nat.succ_pos _) hlt (by rw [List.length_cons] at hlen; omega)

theorem getCurrentIe_prev (ht : Codes tree) (hprev : flags.getPrev = true) (hentry : flags.getLastEntry = false)
    (h : Inv true c) (hfuel : treeMaxDepth < fuel) : Ends (getCurrentIe tree flags fuel) c
      (fun _ c' => Inv true c' ∧ stackRank c'.stack ≤ stackRank c.stack ∧
        ((flagsAt c.ie).isNode = true ∨ (flagsAt c.ie).isBegin = true → stackRank c'.stack < stackRank c.stack))
      (fun e _ => Quits e) := by
  unfold getCurrentIe
  rw [ends_bind]
  refine (descend_ends ht (by simp [hprev]) h (by omega)).mono (fun _ c₁ h₁ => ?_) fun _ _ he => he
  obtain ⟨hinv, qs, hqs, hnode, hsame⟩ := h₁
  have hle := hinv.rank_extend hqs
  refine (ascend_prev ht hprev hentry hinv (by have := hinv.depth; omega)).mono (fun _ c' h' => ?_) fun _ _ he => he
  obtain ⟨hinv', hbelow | ⟨hstay, hbegin⟩⟩ := h'
  · have hlt := (hbelow.rank_lt hinv.stack_length).trans_le hle
    exact ⟨hinv', hlt.le, fun _ => hlt⟩
  · rw [hstay]
    refine ⟨hinv', hle, fun hflags => hinv.rank_push hqs ?_⟩
    rcases hflags with hflag | hflag
    · exact hnode hflag
    · intro hnil
      rw [hsame hnil, hflag] at hbegin
      exact Bool.noConfusion hbegin

/-- Backwards it becomes smaller. -/
theorem walkTree_prev (ht : Codes tree) {remove : Bool} (h : Inv true c) (hfuel : treeMaxDepth < fuel) :
    Ends (walkTree tree { getPrev := true, removeBlock := remove } fuel) c
      (fun _ c' => Inv true c' ∧ stackRank c'.stack < stackRank c.stack) (fun e _ => Quits e) := by
  unfold walkTree
  rw [ends_bind, ends_assertThat]
  refine ⟨fun _ => ?_, fun _ => .inr rfl⟩
  let flags : WalkFlags := { getPrev := true, removeBlock := remove }
  show Ends (do
    let f ← ieFlags (← get).ie
    if ¬ f.isNode then getPrevIe >>= fun _ => getCurrentIe tree flags fuel
    else getCurrentIe tree flags fuel) c _ _
  rw [ends_bind, ends_get, ends_bind, ends_ieFlags]
  split_ifs with hnode
  · refine (getCurrentIe_prev ht rfl rfl (h.reading _) hfuel).mono (fun _ c' h' => ?_) fun _ _ he => he
    exact ⟨h'.1, h'.2.2 (.inl hnode)⟩
  · rw [ends_bind]
    refine (getPrevIe_ends (h.reading _)).mono (fun r c₁ h₁ => ?_) fun _ _ he => he
    obtain ⟨hinv, hlevels, hle, hlt, hbegin⟩ := h₁
    rw [reading_levels] at hlevels
    rw [reading_position] at hle hlt
    have hstack : c₁.stack = c₁.position :: c.levels.map Level.position := by
      unfold Cursor.stack
      rw [hlevels]
    have hbelow : c₁.position < c.position → stackRank c₁.stack < stackRank c.stack := fun hpos =>
      Below.rank_lt ⟨[], c.position, c₁.position, _, rfl, hstack, hpos⟩ h.stack_length
    refine (getCurrentIe_prev ht rfl rfl hinv hfuel).mono (fun _ c' h' => ?_) fun _ _ he => he
    obtain ⟨hinv', hle', hlt'⟩ := h'
    refine ⟨hinv', ?_⟩
    cases r with
    | entry => exact hle'.trans_lt (hbelow (hlt rfl))
    | gettoBegin =>
      refine (hlt' (.inr (hbegin rfl))).trans_le ?_
      rcases hle.lt_or_eq with hpos | hpos
      · exact (hbelow hpos).le
      · rw [hstack, hpos]
        exact le_rfl

theorem walkTree_first (ht : Codes tree) {remove : Bool} (hfuel : treeMaxDepth < fuel) :
    Ends (walkTree tree { getFirst := true, removeBlock := remove } fuel) c (fun _ c' => Inv false c')
      (fun e _ => Quits e) := by
  unfold walkTree
  rw [ends_bind, ends_assertThat]
  refine ⟨fun _ => ?_, fun _ => .inr rfl⟩
  let flags : WalkFlags := { getFirst := true, removeBlock := remove }
  show Ends (resetCacheStack tree flags >>= fun _ => getCurrentIe tree flags fuel) c _ _
  rw [ends_bind]
  unfold resetCacheStack
  rw [ends_bind, ends_modify]
  refine (getFirstIe_ends (b := false) (k := tree.root) rfl (by norm_num [treeMaxDepth]) (by simp)).mono
    (fun _ c₁ h₁ => ?_) fun _ _ => False.elim
  exact (getCurrentIe_next ht rfl rfl h₁.1 hfuel).mono (fun _ c' h' => h'.1) fun _ _ he => he

theorem walkTree_last (ht : Codes tree) {remove : Bool} (hfuel : treeMaxDepth < fuel) :
    Ends (walkTree tree { getLast := true, removeBlock := remove } fuel) c (fun _ c' => Inv true c')
      (fun e _ => Quits e) := by
  unfold walkTree
  rw [ends_bind, ends_assertThat]
  refine ⟨fun _ => ?_, fun _ => .inr rfl⟩
  let flags : WalkFlags := { getLast := true, removeBlock := remove }
  show Ends (resetCacheStack tree flags >>= fun _ => getCurrentIe tree flags fuel) c _ _
  rw [ends_bind]
  unfold resetCacheStack
  rw [ends_bind, ends_modify]
  refine (getLastIe_ends (k := tree.root) rfl (by norm_num [treeMaxDepth]) (by simp)).mono (fun _ c₁ h₁ => ?_) fun _ _ => False.elim
  unfold getCurrentIe
  rw [ends_bind]
  refine (descend_ends ht (by simp [flags]) h₁.1 (by omega)).mono (fun _ c₂ h₂ => ?_) fun _ _ he => he
  have hdepth := h₂.1.depth
  exact ascend_last ht rfl rfl h₂.1 (by omega)

/-! ## The loops -/

/-- The rounds that are enough for each loop. -/
def enoughRounds : ℕ := rankBound + treeMaxDepth + 1

theorem countLoop_ends (ht : Codes tree) {bound cnt : ℕ} (hbound : treeMaxDepth < bound) (h : Inv false c)
    (hfuel : rankBound < stackRank c.stack + fuel) :
    Ends (countLoop tree bound fuel cnt) c (fun _ _ => True) (fun e _ => Quits e) := by
  induction fuel generalizing c cnt with
  | zero => exact absurd h.rank_le (by omega)
  | succ fuel ih =>
    unfold countLoop
    rw [ends_bind, ends_codeOf]
    refine (walkTree_next ht h hbound).mono (fun _ c' h' => ?_) fun e c' he => ?_
    · exact ih h'.1 (by omega)
    · split_ifs with hstops
      · exact he
      · trivial

section WalkAll

variable {π : Type} {cb : Cursor → EStateM ErrorCode π Unit} {para : π}

/-- The callback comes back, or fails an `ASSERT`. -/
def Returns (cb : Cursor → EStateM ErrorCode π Unit) : Prop :=
  ∀ c p, Ends (cb c) p (fun _ _ => True) (fun e _ => Quits e)

/-- A loop around `walk_tree` ends if `m` grows with each call. -/
theorem walkLoop_ends {bound B : ℕ} {m : Cursor → ℕ} {I : Cursor → Prop} (hcb : Returns cb)
    (hstep : ∀ c, I c → Ends (walkTree tree flags bound) c (fun _ c' => I c' ∧ m c < m c') (fun e _ => Quits e))
    (hle : ∀ c, I c → m c ≤ B) (h : I c) (hfuel : B < m c + fuel) :
    Ends (walkLoop tree flags cb bound fuel) (c, para) (fun _ _ => True) (fun e _ => Quits e) := by
  induction fuel generalizing c para with
  | zero => exact absurd (hle c h) (by omega)
  | succ fuel ih =>
    unfold walkLoop
    rw [ends_bind, ends_get, ends_bind, ends_zoom]
    refine (hcb c para).mono (fun _ p _ => ?_) fun _ _ he => he
    rw [ends_bind, ends_codeOf, ends_zoom]
    refine (hstep c h).mono (fun _ c' h' => ?_) fun e c' he => ?_
    · exact ih h'.1 (by omega)
    · split_ifs with hstops
      · exact he
      · trivial

theorem indexWalkAll_ends (ht : Codes tree) (hcb : Returns cb) {reverse remove : Bool} (hfuel : enoughRounds ≤ fuel) :
    Ends (indexWalkAll tree reverse remove cb fuel) (c, para) (fun _ _ => True) (fun e _ => Quits e) := by
  have hbound : treeMaxDepth < fuel := lt_of_lt_of_le (by unfold enoughRounds; omega) hfuel
  have hrank : rankBound < fuel := lt_of_lt_of_le (by unfold enoughRounds; omega) hfuel
  unfold indexWalkAll
  cases reverse with
  | false =>
    rw [ends_bind, ends_codeOf, ends_zoom]
    refine (walkTree_first ht hbound).mono (fun _ c' h' => ?_) fun e c' he => ?_
    · exact walkLoop_ends hcb (fun c hc => walkTree_next ht hc hbound) (fun c hc => hc.rank_le) h' (by omega)
    · split_ifs with hstops
      · exact he
      · trivial
  | true =>
    rw [ends_bind, ends_codeOf, ends_zoom]
    refine (walkTree_last ht hbound).mono (fun _ c' h' => ?_) fun e c' he => ?_
    · refine walkLoop_ends (m := fun c => rankBound - stackRank c.stack) hcb (fun c hc => ?_)
        (fun c _ => Nat.sub_le _ _) h' (by omega)
      refine (walkTree_prev ht hc hbound).mono (fun _ c₁ h₁ => ⟨h₁.1, ?_⟩) fun _ _ he => he
      have hle := hc.rank_le
      have hlt := h₁.2
      omega
    · split_ifs with hstops
      · exact he
      · trivial

end WalkAll

theorem indexGetTotalKey_ends (ht : Codes tree) (hfuel : enoughRounds ≤ fuel) :
    Ends (indexGetTotalKey tree fuel) c (fun _ _ => True) (fun e _ => Quits e) := by
  have hbound : treeMaxDepth < fuel := lt_of_lt_of_le (by unfold enoughRounds; omega) hfuel
  have hrank : rankBound < fuel := lt_of_lt_of_le (by unfold enoughRounds; omega) hfuel
  unfold indexGetTotalKey
  rw [ends_bind, ends_codeOf]
  refine (walkTree_first ht hbound).mono (fun _ c' h' => ?_) fun e c' he => ?_
  · exact countLoop_ends ht hbound h' (by omega)
  · split_ifs with hstops
    · exact he
    · trivial

/-! ## The search -/

open IndexFs.Collate

/-- The only error is a failing `ASSERT`. -/
def Asserts {σ α : Type} (x : EStateM ErrorCode σ α) : Prop :=
  ∀ s, Ends x s (fun _ _ => True) fun e _ => e = .assertion

section Asserts

variable {σ α β : Type} {x : EStateM ErrorCode σ α} {f : α → EStateM ErrorCode σ β} {m : Memory}

theorem Asserts.pure (a : α) : Asserts (pure a : EStateM ErrorCode σ α) := fun _ => trivial

theorem Asserts.throw : Asserts (throw .assertion : EStateM ErrorCode σ α) := fun _ => rfl

theorem Asserts.bind (hx : Asserts x) (hf : ∀ a, Asserts (f a)) : Asserts (x >>= f) := fun s =>
  (hx s).seq fun a s' _ => hf a s'

theorem Asserts.ite {c : Prop} [Decidable c] {y : EStateM ErrorCode σ α} (hx : Asserts x) (hy : Asserts y) :
    Asserts (if c then x else y) := by
  split_ifs
  · exact hx
  · exact hy

theorem readByte_asserts {p : Operand} {i : ℕ} : Asserts (readByte m p i) := fun _ => trivial

theorem assertSizes_asserts {n1 n2 : ℕ} : Asserts (assertSizes n1 n2) := .ite .throw (.pure _)

theorem skipZeros_asserts {p : Operand} {n pos : ℕ} : Asserts (skipZeros m p n pos) := by
  induction n generalizing pos with
  | zero => exact readByte_asserts.bind fun _ => .pure _
  | succ n ih => exact readByte_asserts.bind fun _ => .ite ih (.pure _)

theorem compareBytes_asserts {n pos1 pos2 : ℕ} : Asserts (compareBytes m n pos1 pos2) := by
  induction n generalizing pos1 pos2 with
  | zero => exact .pure _
  | succ n ih => exact readByte_asserts.bind fun _ => readByte_asserts.bind fun _ => .ite (.pure _) (.ite (.pure _) ih)

theorem compareStrings_asserts {char : Operand → ℕ → ReadM ℤ} (hchar : ∀ p i, Asserts (char p i)) {n1 n2 i : ℕ} :
    Asserts (compareStrings char n1 n2 i) := by
  fun_induction compareStrings char n1 n2 i with
  | case1 n1 n2 i ih =>
    exact (hchar _ _).bind fun _ => (hchar _ _).bind fun _ => .ite (.pure _) (.ite (.pure _) ih)
  | case2 => exact .pure _
  | case3 => exact .pure _
  | case4 => exact .pure _

theorem readSlice_asserts {p : Operand} {pos n : ℕ} : Asserts (readSlice m p pos n) := by
  induction n generalizing pos with
  | zero => exact .pure _
  | succ n ih => exact readByte_asserts.bind fun _ => ih.bind fun _ => .pure _

theorem osBstrToU64At_asserts {p : Operand} {pos n : ℕ} : Asserts (osBstrToU64At m p pos n) :=
  .ite .throw (readSlice_asserts.bind fun _ => .pure _)

theorem osCollateU64At_asserts {n1 n2 : ℕ} : Asserts (osCollateU64At m n1 n2) :=
  osBstrToU64At_asserts.bind fun _ => osBstrToU64At_asserts.bind fun _ => .pure _

theorem osExtentPairToExtentAt_asserts {p : Operand} {n : ℕ} : Asserts (osExtentPairToExtentAt m p n) :=
  readByte_asserts.bind fun _ => .ite (.pure _)
    (osBstrToU64At_asserts.bind fun _ => osBstrToU64At_asserts.bind fun _ => .pure _)

theorem readPa_asserts {c : Cell} {stack : ℕ} {pa : Option ℕ} : Asserts (readPa c stack pa) := by
  cases pa with
  | none => exact fun _ => trivial
  | some pa => exact .pure _

/-- `collate_key` gives a result, or an `ASSERT` fails. -/
theorem collateKeyAt_asserts {cr : CollateRule} {size : Sizes} : Asserts (collateKeyAt m cr size) := by
  unfold collateKeyAt
  refine .ite .throw ?_
  cases cr with
  | binary =>
    exact assertSizes_asserts.bind fun _ => skipZeros_asserts.bind fun _ => skipZeros_asserts.bind fun _ =>
      .ite (.pure _) (.ite (.pure _) compareBytes_asserts)
  | ansiString =>
    exact assertSizes_asserts.bind fun _ => compareStrings_asserts fun _ _ => readByte_asserts.bind fun _ => .pure _
  | unicodeString =>
    exact assertSizes_asserts.bind fun _ => compareStrings_asserts fun _ _ =>
      readByte_asserts.bind fun _ => readByte_asserts.bind fun _ => .pure _
  | u64 => exact osCollateU64At_asserts
  | extent =>
    refine .ite osCollateU64At_asserts ?_
    exact osBstrToU64At_asserts.bind fun _ => osBstrToU64At_asserts.bind fun _ =>
      osBstrToU64At_asserts.bind fun _ => osBstrToU64At_asserts.bind fun _ => .ite (.pure _) (.ite (.pure _) (.pure _))
  | extentMap =>
    refine .ite osCollateU64At_asserts ?_
    exact osBstrToU64At_asserts.bind fun _ => osBstrToU64At_asserts.bind fun _ =>
      osExtentPairToExtentAt_asserts.bind fun _ => osExtentPairToExtentAt_asserts.bind fun _ =>
      .ite (.pure _) (.ite (.pure _) (readPa_asserts.bind fun _ => readPa_asserts.bind fun _ =>
        .ite (.pure _) (.ite (.pure _) (.pure _))))

end Asserts

theorem collateKey_ends {q : Query} : Ends (collateKey tree q) c (fun _ c' => ∃ r, c' = c.reading r)
    (fun e _ => Quits e) := by
  have hcmp : ∀ (m : Memory) (size : Sizes) (c₁ : Cursor),
      Ends (fromExcept (resultOf (collateKeyAt m tree.cr size)) : RawM ℤ) c₁ (fun _ c' => c' = c₁) fun e _ => Quits e := by
    intro m size c₁
    have hasserts : Ends (collateKeyAt m tree.cr size) [] (fun _ _ => True) fun e _ => e = .assertion :=
      collateKeyAt_asserts []
    unfold resultOf
    unfold Ends at hasserts
    cases hx : collateKeyAt m tree.cr size [] with
    | ok a s => rfl
    | error e s =>
      rw [hx] at hasserts
      exact .inr hasserts
  unfold collateKey
  rw [ends_bind, ends_get, ends_bind, ends_ieKeyLen]
  by_cases hvalue : tree.cr = .extent ∨ tree.cr = .extentMap
  · rw [if_pos hvalue, ends_bind, ends_ieValueLen, ends_bind, ends_modify]
    exact (hcmp _ _ _).mono (fun _ c' hc' => ⟨_, hc'⟩) fun _ _ he => he
  · rw [if_neg hvalue, ends_bind, ends_pure, ends_bind, ends_modify]
    exact (hcmp _ _ _).mono (fun _ c' hc' => ⟨_, hc'⟩) fun _ _ he => he

/-- The inner loop of the search ends within the block, since positions are numbers of 32 bits. -/
theorem searchBlock_ends {q : Query} (h : Inv false c) (hfuel : 2 ^ 32 ≤ c.position + fuel) :
    Ends (searchBlock tree q fuel) c (fun _ c' => Inv false c' ∧ c'.levels = c.levels) (fun e _ => Quits e) := by
  induction fuel generalizing c with
  | zero => exact absurd h.position (by omega)
  | succ fuel ih =>
    unfold searchBlock
    rw [ends_bind, ends_get, ends_bind, ends_ieFlags]
    split_ifs with hend
    · exact ⟨h.reading _, rfl⟩
    · rw [ends_bind]
      refine collateKey_ends.mono (fun ret c₁ h₁ => ?_) fun _ _ he => he
      obtain ⟨r, rfl⟩ := h₁
      split_ifs with hgreater hequal
      · exact ⟨(h.reading _).reading _, rfl⟩
      · exact ⟨(h.reading _).reading _, rfl⟩
      · rw [ends_bind]
        refine (getNextIe_ends ((h.reading _).reading _)).mono (fun _ c₂ h₂ => ?_) fun _ _ he => he
        obtain ⟨hinv, hlevels, hlt⟩ := h₂
        rw [reading_position, reading_position] at hlt
        refine (ih hinv (by omega)).mono (fun _ c' h' => ?_) fun _ _ he => he
        exact ⟨h'.1, h'.2.trans hlevels⟩

theorem searchLevels_ends (ht : Codes tree) {q : Query} {rounds : ℕ} (hrounds : 2 ^ 32 ≤ rounds) (h : Inv false c)
    (hfuel : treeMaxDepth < c.levels.length + fuel) :
    Ends (searchLevels tree q rounds fuel) c (fun _ _ => True) (fun e _ => Quits e) := by
  induction fuel generalizing c with
  | zero =>
    have hdepth := h.depth
    omega
  | succ fuel ih =>
    unfold searchLevels
    rw [ends_bind]
    refine (searchBlock_ends h (by omega)).mono (fun found c₁ h₁ => ?_) fun _ _ he => he
    obtain ⟨hinv, hlevels⟩ := h₁
    split_ifs with hfound
    · trivial
    rw [ends_bind, ends_get, ends_bind, ends_ieFlags]
    split_ifs with hnode
    · rw [ends_bind]
      refine (pushCacheStack_ends ht (by simp) (hinv.reading _)).mono (fun _ c₂ h₂ => ?_) fun _ _ he => he
      obtain ⟨hinv₂, p, hstack⟩ := h₂
      have hlen := congrArg List.length hstack
      simp only [Cursor.stack, List.length_cons, List.length_map, reading_levels, hlevels] at hlen
      exact ih hinv₂ (by omega)
    · exact .inl rfl

theorem searchKeyInternal_ends (ht : Codes tree) {q : Query} (hfuel : enoughRounds ≤ fuel) :
    Ends (searchKeyInternal tree q fuel) c (fun _ _ => True) (fun e _ => Quits e) := by
  have hbound : treeMaxDepth < fuel := lt_of_lt_of_le (by unfold enoughRounds; omega) hfuel
  have hrank : 2 ^ 32 ≤ fuel := by
    refine le_trans ?_ hfuel
    unfold enoughRounds rankBound
    have hpow : (2 ^ 32 + 1) ^ 1 ≤ (2 ^ 32 + 1) ^ treeMaxDepth := Nat.pow_le_pow_right (by norm_num) (by decide)
    omega
  unfold searchKeyInternal
  rw [ends_bind, ends_assertThat]
  refine ⟨fun _ => ?_, fun _ => .inr rfl⟩
  rw [ends_bind]
  unfold resetCacheStack
  rw [ends_bind, ends_modify]
  refine (getFirstIe_ends (b := false) (k := tree.root) rfl (by norm_num [treeMaxDepth]) (by simp)).mono
    (fun _ c₁ h₁ => ?_) fun _ _ => False.elim
  exact searchLevels_ends ht hrank h₁.1 (by omega)

/-! ## Every loop ends -/

/-- With enough rounds the search, both walks and the count end: with a result, with a code, or because an
`ASSERT` fails. -/
theorem raw_loops_return {π : Type} (ht : Codes tree) {cb : Cursor → EStateM ErrorCode π Unit} (hcb : Returns cb) :
    ∃ rounds, ∀ fuel ≥ rounds, ∀ c : Cursor,
      (∀ q, Ends (searchKeyInternal tree q fuel) c (fun _ _ => True) fun e _ => Quits e) ∧
      (∀ reverse remove para,
        Ends (indexWalkAll tree reverse remove cb fuel) (c, para) (fun _ _ => True) fun e _ => Quits e) ∧
      Ends (indexGetTotalKey tree fuel) c (fun _ _ => True) fun e _ => Quits e :=
  ⟨enoughRounds, fun _ hfuel _ => ⟨fun _ => searchKeyInternal_ends ht hfuel,
    fun _ _ _ => indexWalkAll_ends ht hcb hfuel, indexGetTotalKey_ends ht hfuel⟩⟩

/-- A block of 60 bytes with an entry of 17 bytes at 42, whose `flags` are given. -/
def oneEntryBlock (flags : UInt8) : Mem := fun i =>
  if i = 8 then 60 else if i = 16 then 42 else if i = 42 then 17 else if i = 50 then flags else 0

/-- A tree in which each block is the same one. -/
def sameBlockTree (ib : Mem) : RawTree where
  table := true
  cr := .binary
  root := ⟨1, ib⟩
  block _ := .ok ib
  freeBlock _ := .ok ()

theorem sameBlockTree_codes (ib : Mem) : Codes (sameBlockTree ib) where
  block _ _ h := by cases h
  freeBlock _ _ h := by cases h

/-- The only entry of each block has the block `0` as its child. -/
theorem raw_loops_return_cycle :
    ∃ rounds, ∀ fuel ≥ rounds, ∀ c : Cursor,
      (∀ q, Ends (searchKeyInternal (sameBlockTree (oneEntryBlock 1)) q fuel) c (fun _ _ => True) fun e _ => Quits e) ∧
      (∀ reverse remove para,
        Ends (indexWalkAll (sameBlockTree (oneEntryBlock 1)) reverse remove (fun _ => (pure () : EStateM ErrorCode Unit Unit))
          fuel) (c, para) (fun _ _ => True) fun e _ => Quits e) ∧
      Ends (indexGetTotalKey (sameBlockTree (oneEntryBlock 1)) fuel) c (fun _ _ => True) fun e _ => Quits e :=
  raw_loops_return (sameBlockTree_codes _) fun _ _ => trivial

/-- An entry without a key fails an `ASSERT` of the comparison, so the search does not come back. -/
theorem search_aborts :
    ¬ ∃ rounds, ∀ fuel ≥ rounds, ∀ c : Cursor, ∀ q,
      Ends (searchKeyInternal (sameBlockTree (oneEntryBlock 0)) q fuel) c (fun _ _ => True) fun e _ => e.stops = false := by
  rintro ⟨rounds, h⟩
  have hq := h (rounds + 1) (Nat.le_succ _) ⟨0, [], none, 0, ⟨fun _ => 0, 0⟩, []⟩ ⟨fun _ => 1, 1, fun _ => 0, 0, 0, 0⟩
  exact Bool.noConfusion (show true = false from hq)

end IndexFs.Raw
