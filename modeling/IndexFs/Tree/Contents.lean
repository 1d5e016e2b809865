import IndexFs.Lib.Invariant
import IndexFs.Tree.Edit

/-!
# What a tree contains

The functions of `object_system/ofs_btree.c` move entries about, split blocks and
free them, but make no key or value of their own: whatever `K` says of the keys and
values that are inserted, it says of every entry of every block, whether or not a
call fails half way and whatever the shape of the tree.

A search never looks at the BEGIN entry of a block: its cursor starts behind it and
moves on (`Inside` with `b`).

Results:

* `BlockIn`: kept by the functions that edit a block.
* `searchKeyInternal_safe`: a search compares its key with what is in `K` only.
* `indexInsertKeyNolock_safe`, `indexRemoveKeyNolock_safe`, `indexUpdateValue_safe`: no call
  fails an `ASSERT`, and `K` holds of the tree again.
-/

namespace IndexFs.Tree

open IndexFs.Collate

variable {σ : Type} (K : Bytes → Bytes → Prop)

/-! ## Blocks -/

/-- The key and the value are in `K`, unless it is an END entry. -/
def EntryIn (e : IndexEntry) : Prop := e.isEnd = true ∨ K e.key e.value

structure BlockIn (ib : IndexBlock) : Prop where
  first : beginEntryOff < ib.firstEntryOff
  begin : ib.beginEntry.isBegin = true
  entries : ∀ e ∈ ib.entries, EntryIn K e

section Block

variable {K}
variable {ib ib' : IndexBlock} {e : IndexEntry} {pos n : ℕ} {before after : List IndexEntry}

theorem splitEntries_append {l : List IndexEntry} (h : splitEntries n l = some (before, after)) :
    l = before ++ after := by
  induction l generalizing n before with
  | nil =>
    unfold splitEntries at h
    split_ifs at h
    cases h
    rfl
  | cons e l ih =>
    unfold splitEntries at h
    split_ifs at h with h0 hlt
    · cases h
      rfl
    · cases hrest : splitEntries (n - e.len) l with
      | none => simp [hrest] at h
      | some r =>
        obtain ⟨b, a⟩ := r
        rw [hrest, Option.map_some, Option.some.injEq, Prod.mk.injEq] at h
        obtain ⟨rfl, rfl⟩ := h
        rw [ih hrest]
        rfl

/-- A position that names entries lies behind the BEGIN entry. -/
theorem entriesAt_some (h : entriesAt ib pos = some (before, after)) :
    ib.firstEntryOff ≤ pos ∧ ib.entries = before ++ after := by
  unfold entriesAt at h
  split_ifs at h with hlt
  exact ⟨not_lt.mp hlt, splitEntries_append h⟩

theorem getIe_error {r : ErrorCode} (h : getIe ib pos = .error r) : r ≠ .assertion := by
  unfold getIe at h
  split_ifs at h
  split at h
  · cases h
  · cases h
    decide

/-- The entry at a position is in `K`, or it is the BEGIN entry. -/
theorem BlockIn.getIe (h : BlockIn K ib) (he : Tree.getIe ib pos = .ok e) :
    (beginEntryOff < pos → EntryIn K e) ∧ (EntryIn K e ∨ e.isBegin = true) := by
  unfold Tree.getIe at he
  split_ifs at he with hpos
  · cases he
    exact ⟨fun hlt => absurd hpos hlt.ne', .inr h.begin⟩
  · split at he
    · rename_i before e' after heq
      cases he
      have hmem : e ∈ ib.entries := by rw [(entriesAt_some heq).2]; simp
      exact ⟨fun _ => h.entries e hmem, .inl (h.entries e hmem)⟩
    · cases he

theorem BlockIn.of_entries (h : BlockIn K ib) {l : List IndexEntry} (hl : ∀ e ∈ l, EntryIn K e) (r : ℕ) :
    BlockIn K { ib with realSize := r, entries := l } := ⟨h.first, h.begin, hl⟩

theorem initIb_in (large : Bool) (alloc : ℕ) : BlockIn K (initIb large alloc) where
  first := (by decide : beginEntryOff < indexBlockSize)
  begin := rfl
  entries e he := .inl (by rw [List.mem_singleton.mp he]; rfl)

theorem makeIbSmall_in (h : BlockIn K ib) : BlockIn K (makeIbSmall ib) where
  first := h.first
  begin := rfl
  entries e he := .inl (by rw [List.mem_singleton.mp he]; rfl)

/-- `BlockIn` for the parts of a block that was cut. -/
theorem BlockIn.cut (h : BlockIn K ib) (hcut : entriesAt ib pos = some (before, after)) :
    (∀ e ∈ before, EntryIn K e) ∧ ∀ e ∈ after, EntryIn K e := by
  have hall := h.entries
  rw [(entriesAt_some hcut).2, List.forall_mem_append] at hall
  exact hall

/-- What a function on a block returns: a value in `Q`, or an error that is no failing `ASSERT`. -/
def Returns {α : Type} (Q : α → Prop) (r : Except ErrorCode α) : Prop :=
  (∀ a, r = .ok a → Q a) ∧ ∀ e, r = .error e → e ≠ .assertion

theorem returns_ok {α : Type} {Q : α → Prop} {a : α} (ha : Q a) : Returns Q (.ok a) :=
  ⟨fun _ h => Except.ok.inj h ▸ ha, fun _ h => by cases h⟩

theorem returns_memory {α : Type} {Q : α → Prop} : Returns Q (.error .memory) := by
  refine ⟨fun a h => ?_, fun e h => ?_⟩
  · cases h
  · cases h
    decide

theorem setIeVbn_in (h : BlockIn K ib) (pos vbn : ℕ) : Returns (BlockIn K) (setIeVbn ib pos vbn) := by
  unfold setIeVbn
  split
  · rename_i before e after heq
    obtain ⟨hbefore, hafter⟩ := h.cut heq
    rw [List.forall_mem_cons] at hafter
    refine returns_ok (h.of_entries (List.forall_mem_append.mpr ⟨hbefore, ?_⟩) _)
    exact List.forall_mem_cons.mpr hafter
  · exact returns_memory

theorem insertIe_in (h : BlockIn K ib) (he : EntryIn K e) (pos : ℕ) : Returns (BlockIn K) (insertIe ib e pos) := by
  unfold insertIe
  split_ifs
  · exact returns_memory
  · split
    · rename_i before p after heq
      obtain ⟨hbefore, hafter⟩ := h.cut heq
      rw [List.forall_mem_cons] at hafter
      refine returns_ok (h.of_entries (List.forall_mem_append.mpr ⟨hbefore, ?_⟩) _)
      exact List.forall_mem_cons.mpr ⟨he, List.forall_mem_cons.mpr hafter⟩
    · exact returns_memory

theorem removeIe_in (h : BlockIn K ib) (pos : ℕ) : Returns (BlockIn K) (removeIe ib pos) := by
  unfold removeIe
  split
  · rename_i before e next after heq
    obtain ⟨hbefore, hafter⟩ := h.cut heq
    rw [List.forall_mem_cons, List.forall_mem_cons] at hafter
    refine returns_ok (h.of_entries (List.forall_mem_append.mpr ⟨hbefore, ?_⟩) _)
    exact List.forall_mem_cons.mpr hafter.2
  · exact returns_memory

/-- An entry that can be removed is not the BEGIN entry. -/
theorem removeIe_ok (h : BlockIn K ib) (hrem : removeIe ib pos = .ok ib') : beginEntryOff < pos := by
  unfold removeIe at hrem
  split at hrem
  · rename_i heq
    exact h.first.trans_le (entriesAt_some heq).1
  · cases hrem

theorem copyIbTail_in (h : BlockIn K ib) (pos : ℕ) :
    Returns (fun r => BlockIn K r.1 ∧ BlockIn K r.2) (copyIbTail ib pos) := by
  unfold copyIbTail
  split
  · rename_i before m next after heq
    obtain ⟨hbefore, hafter⟩ := h.cut heq
    rw [List.forall_mem_cons, List.forall_mem_cons] at hafter
    have htail : ∀ e ∈ { next with prevLen := entrySize } :: after, EntryIn K e :=
      List.forall_mem_cons.mpr hafter.2
    refine returns_ok ⟨(initIb_in _ _).of_entries htail _, h.of_entries (List.forall_mem_append.mpr ⟨hbefore, ?_⟩) _⟩
    exact List.forall_mem_cons.mpr ⟨hafter.1, htail⟩
  · exact returns_memory

theorem cutIbTail_in (h : BlockIn K ib) (pos : ℕ) :
    Returns (fun ib' => BlockIn K ib' ∧ beginEntryOff < pos) (cutIbTail ib pos) := by
  unfold cutIbTail
  split
  · rename_i before m rest heq
    obtain ⟨hbefore, hafter⟩ := h.cut heq
    rw [List.forall_mem_cons] at hafter
    split
    · rename_i last hlast
      have hend : EntryIn K last := hafter.2 last (List.mem_of_getLast? hlast)
      cases hprev : getIe ib (pos - m.prevLen) with
      | error e =>
        have he := getIe_error hprev
        refine ⟨fun a h => ?_, fun e' h => ?_⟩
        · cases h
        · cases h
          exact he
      | ok prev =>
        refine returns_ok ⟨h.of_entries (List.forall_mem_append.mpr ⟨hbefore, List.forall_mem_singleton.mpr ?_⟩) _,
          h.first.trans_le (entriesAt_some heq).1⟩
        split_ifs
        · exact hend
        · exact hend
    · exact returns_memory
  · exact returns_memory

theorem dumpIeAddVbn_in (h : EntryIn K e) (vbn : ℕ) : EntryIn K (dumpIeAddVbn e vbn) := h

theorem dumpIeDelVbn_in (h : EntryIn K e) : EntryIn K (dumpIeDelVbn e) := h

end Block

/-! ## The state of an object -/

/-- Every block of the tree is in `K`. -/
structure TreeIn (t : ObjectTree σ) : Prop where
  root : BlockIn K t.rootIb
  caches : ∀ vbn c ib, t.caches vbn = some c → c.ib = some ib → BlockIn K ib

/-- The blocks are in `K`; while `b`, the cursor is behind the BEGIN entry of its block. -/
def Inside (b : Prop) (t : ObjectTree σ) : Prop :=
  TreeIn K t ∧ (b → ∀ f, t.stack.head? = some f → beginEntryOff < f.position)

/-- The container fails no `ASSERT`, and reading a block for the object succeeds, unless there is no
memory for a cache, with a block in `K`. -/
structure EnvIn (env : TreeEnv σ) : Prop where
  allocBlock : ∀ ct, Ends env.allocBlock ct (fun _ _ => True) fun e _ => e ≠ .assertion
  freeBlock : ∀ vbn ct, Ends (env.freeBlock vbn) ct (fun _ _ => True) fun e _ => e ≠ .assertion
  allocCache : ∀ ct, Ends env.allocCache ct (fun _ _ => True) fun e _ => e ≠ .assertion
  readBlock : ∀ vbn ct, Ends (env.readBlock vbn) ct (fun c _ => ∃ ib, c.ib = some ib ∧ BlockIn K ib)
    fun e _ => e = .allocateMemory

/-- `x` fails no `ASSERT` and leaves the blocks in `K`, with a value in `Q`. -/
abbrev Safe {α : Type} (b : Prop) (Q : α → Prop) (x : TreeM σ α) : Prop :=
  Upholds (Inside K b) (· ≠ .assertion) Q x

/-- The comparison with `key` and `value` fails no `ASSERT` on what is in `K`. -/
def Comparable (cr : CollateRule) (key value : Bytes) : Prop :=
  ∀ ie : IndexEntry, K ie.key ie.value → collateKey cr ie key value ≠ .error .assertion

section State

variable {K}
variable {b : Prop} {env : TreeEnv σ} {t : ObjectTree σ} {α β : Type} {Q : α → Prop} {R : β → Prop}

/-- A return code that was looked at is no failing `ASSERT`. -/
theorem Safe.codeOf {x : TreeM σ α} (hx : Safe K b Q x) : Safe K b (Returns Q) (codeOf x) := by
  intro t ht
  refine ends_codeOf.mpr ((hx t ht).mono (fun a t' h => ⟨h.1, returns_ok h.2⟩) fun e t' h => ?_)
  split_ifs
  · exact h
  · refine ⟨h.1, fun a ha => ?_, fun e' he' => ?_⟩
    · cases ha
    · cases he'
      exact h.2

theorem Safe.returns {r : Except ErrorCode α} (h : Returns Q r) : Safe (σ := σ) K b Q (fromExcept r) :=
  Upholds.fromExcept h.1 h.2

/-- A change of the state that keeps blocks and cursor. -/
theorem Safe.modify {g : ObjectTree σ → ObjectTree σ} (hroot : ∀ t, (g t).rootIb = t.rootIb)
    (hcaches : ∀ t, (g t).caches = t.caches) (hstack : ∀ t, (g t).stack = t.stack) :
    Safe K b (fun _ => True) (modify g : TreeM σ PUnit) := by
  refine Upholds.modify fun t ht => ⟨⟨?_, ?_⟩, ?_⟩
  · rw [hroot]
    exact ht.1.root
  · rw [hcaches]
    exact ht.1.caches
  · rw [hstack]
    exact ht.2

theorem onCt_safe {x : EStateM ErrorCode σ α} (hx : ∀ ct, Ends x ct (fun a _ => Q a) fun e _ => e ≠ .assertion) :
    Safe K b Q (onCt x) :=
  Upholds.zoom hx fun _ _ ht => ⟨⟨ht.1.root, ht.1.caches⟩, ht.2⟩

theorem getIb_safe (ref : CacheRef) : Safe (σ := σ) K b (BlockIn K) (getIb ref) := by
  unfold getIb
  cases ref with
  | root => exact Upholds.get_bind fun t ht => Upholds.pure ht.1.root
  | block vbn =>
    refine Upholds.get_bind fun t ht => ?_
    split
    · rename_i ib hib
      exact Upholds.pure (ht.1.caches vbn _ ib hib rfl)
    · exact Upholds.throw (by decide)

/-- The caches change at one number. -/
theorem Inside.setCache (ht : Inside K b t) (vbn : ℕ) {c' : Option BlockCache}
    (hc' : ∀ c ib, c' = some c → c.ib = some ib → BlockIn K ib) :
    Inside K b { t with caches := Function.update t.caches vbn c' } := by
  refine ⟨⟨ht.1.root, fun n c ib hc hib => ?_⟩, ht.2⟩
  dsimp only at hc
  by_cases hn : n = vbn
  · rw [hn, Function.update_self] at hc
    exact hc' c ib hc hib
  · rw [Function.update_of_ne hn] at hc
    exact ht.1.caches n c ib hc hib

theorem setIb_safe {ib : IndexBlock} (hib : BlockIn K ib) (ref : CacheRef) :
    Safe (σ := σ) K b (fun _ => True) (setIb ref ib) := by
  unfold setIb
  cases ref with
  | root => exact Upholds.modify fun t ht => ⟨⟨hib, ht.1.caches⟩, ht.2⟩
  | block vbn =>
    refine Upholds.modify fun t ht => ht.setCache vbn fun c ib' hc hib' => ?_
    obtain ⟨c₀, -, rfl⟩ := Option.map_eq_some_iff.mp hc
    cases hib'
    exact hib

theorem cacheVbn_safe (ref : CacheRef) : Safe (σ := σ) K b (fun _ => True) (cacheVbn ref) := by
  unfold cacheVbn
  cases ref with
  | root => exact Upholds.get_bind fun t _ => Upholds.pure trivial
  | block vbn => exact Upholds.pure trivial

theorem cacheDirty_safe (ref : CacheRef) : Safe (σ := σ) K b (fun _ => True) (cacheDirty ref) := by
  unfold cacheDirty
  cases ref with
  | root => exact Upholds.get_bind fun t _ => Upholds.pure trivial
  | block vbn =>
    refine Upholds.get_bind fun t _ => ?_
    cases t.caches vbn with
    | some c => exact Upholds.pure trivial
    | none => exact Upholds.throw (by decide)

theorem setCacheDirty_safe (ref : CacheRef) : Safe (σ := σ) K b (fun _ => True) (setCacheDirty ref) := by
  unfold setCacheDirty
  cases ref with
  | root => exact Safe.modify (fun _ => rfl) (fun _ => rfl) fun _ => rfl
  | block vbn =>
    refine Upholds.modify fun t ht => ht.setCache vbn fun c ib hc hib => ?_
    obtain ⟨c₀, hc₀, rfl⟩ := Option.map_eq_some_iff.mp hc
    exact ht.1.caches vbn c₀ ib hc₀ hib

theorem top_safe : Safe (σ := σ) K b (fun f => b → beginEntryOff < f.position) top := by
  unfold top
  refine Upholds.get_bind fun t ht => ?_
  have hpos := ht.2
  cases hstack : t.stack with
  | nil => exact Upholds.throw (by decide)
  | cons f fs =>
    rw [hstack] at hpos
    exact Upholds.pure fun hb => hpos hb f rfl

theorem currentIe_safe : Safe (σ := σ) K b (fun e => (b → EntryIn K e) ∧ (EntryIn K e ∨ e.isBegin = true)) currentIe := by
  unfold currentIe
  refine top_safe.bind fun f hf => (getIb_safe f.cache).bind fun ib hib => ?_
  refine Upholds.fromExcept (fun e he => ?_) fun e he => getIe_error he
  exact ⟨fun hb => (hib.getIe he).1 (hf hb), (hib.getIe he).2⟩

theorem setPosition_safe (pos : ℕ) : Safe (σ := σ) K False (fun _ => True) (setPosition pos) :=
  Upholds.modify fun _ ht => ⟨⟨ht.1.root, ht.1.caches⟩, False.elim⟩

theorem changeObjCacheVbn_safe (old new : ℕ) : Safe (σ := σ) K False (fun _ => True) (changeObjCacheVbn old new) := by
  refine Upholds.modify fun t ht => ⟨⟨ht.1.root, fun n c ib hc hib => ?_⟩, False.elim⟩
  dsimp only at hc
  rw [Function.update_apply, Function.update_apply] at hc
  split_ifs at hc
  · exact ht.1.caches old c ib hc hib
  · exact ht.1.caches n c ib hc hib

theorem freeObjCache_safe (vbn : ℕ) : Safe (σ := σ) K b (fun _ => True) (freeObjCache vbn) :=
  Upholds.modify fun _ ht => ht.setCache vbn fun _ _ hc => nomatch hc

theorem allocObjBlockAndCache_safe (henv : EnvIn K env) :
    Safe K b (fun _ => True) (allocObjBlockAndCache env) := by
  unfold allocObjBlockAndCache
  refine (onCt_safe henv.allocBlock).bind fun vbn _ => (Safe.codeOf (onCt_safe henv.allocCache)).bind fun r _ => ?_
  cases r with
  | ok _ =>
    refine (Upholds.modify fun t ht => ht.setCache vbn fun c ib hc hib => ?_).bind fun _ _ => Upholds.pure trivial
    cases hc
    cases hib
  | error _ =>
    exact (Safe.codeOf (onCt_safe (henv.freeBlock vbn))).bind fun _ _ => Upholds.throw (by decide)

/-! ## The cursor -/

theorem frameAt_safe (i : ℕ) : Safe (σ := σ) K b (fun _ => True) (frameAt i) := by
  unfold frameAt
  refine Upholds.get_bind fun t _ => ?_
  cases t.stack[i]? with
  | some f => exact Upholds.pure trivial
  | none => exact Upholds.throw (by decide)

theorem setFrameVbn_safe (f : Frame) (vbn : ℕ) : Safe (σ := σ) K b (fun _ => True) (setFrameVbn f vbn) := by
  unfold setFrameVbn
  refine (getIb_safe f.cache).bind fun ib hib => ?_
  exact (Safe.returns (setIeVbn_in hib _ _)).bind fun ib' hib' => setIb_safe hib' _

theorem setChildVbn_safe (f : Frame) (vbn : ℕ) : Safe (σ := σ) K b (fun _ => True) (setChildVbn f vbn) :=
  Upholds.ite (fun _ => setFrameVbn_safe f vbn) fun _ => Upholds.pure trivial

theorem renumber_safe (henv : EnvIn K env) (ref : CacheRef) : Safe K False (fun _ => True) (renumber env ref) := by
  unfold renumber
  refine (cacheDirty_safe ref).bind fun dirty _ => Upholds.ite (fun _ => Upholds.pure trivial) fun _ => ?_
  refine (onCt_safe henv.allocBlock).bind fun newVbn _ => (cacheVbn_safe ref).bind fun oldVbn _ => ?_
  cases ref with
  | root =>
    have hroot : Safe (σ := σ) K False (fun _ => True) (modify fun t => { t with rootVbn := newVbn }) :=
      Safe.modify (fun _ => rfl) (fun _ => rfl) fun _ => rfl
    exact hroot.bind fun _ _ => Upholds.pure trivial
  | block vbn => exact (changeObjCacheVbn_safe _ _).bind fun _ _ => Upholds.pure trivial

theorem setIbDirtyFrom_safe (henv : EnvIn K env) (vbn n i : ℕ) :
    Safe K False (fun _ => True) (setIbDirtyFrom env vbn n i) := by
  induction n generalizing vbn i with
  | zero => exact Upholds.pure trivial
  | succ n ih =>
    unfold setIbDirtyFrom
    refine (frameAt_safe i).bind fun f₀ _ => (renumber_safe henv f₀.cache).bind fun changed _ => ?_
    refine (frameAt_safe i).bind fun f _ => (setChildVbn_safe f vbn).bind fun _ _ => ?_
    cases changed with
    | none => exact Upholds.pure trivial
    | some vbns =>
      refine (setCacheDirty_safe f.cache).bind fun _ _ => ?_
      exact (onCt_safe (henv.freeBlock _)).bind fun _ _ => ih _ _

theorem setIbDirty_safe (henv : EnvIn K env) : Safe K False (fun _ => True) (setIbDirty env) :=
  Upholds.get_bind fun _ _ => setIbDirtyFrom_safe henv 0 _ 0

/-- The cursor is put on the first entry of the root. -/
theorem resetCacheStack_ends (ht : TreeIn K t) :
    Ends (resetCacheStack {}) t (fun _ t' => Inside K True t') fun _ _ => False := by
  refine ⟨⟨ht.root, ht.caches⟩, fun _ f hf => ?_⟩
  cases hf
  exact ht.root.first

theorem resetCacheStack_safe (flags : WalkFlags) : Safe (σ := σ) K False (fun _ => True) (resetCacheStack flags) :=
  Upholds.modify fun _ ht => ⟨⟨ht.1.root, ht.1.caches⟩, False.elim⟩

theorem indexBlockRead_safe (henv : EnvIn K env) (vbn : ℕ) : Safe K b (fun _ => True) (indexBlockRead env vbn) := by
  unfold indexBlockRead
  refine top_safe.bind fun f _ => (cacheVbn_safe f.cache).bind fun n _ => ?_
  refine Upholds.ite (fun _ => Upholds.pure trivial) fun _ => Upholds.get_bind fun t _ => ?_
  cases t.caches vbn with
  | some c => exact Upholds.pure trivial
  | none =>
    intro t ht
    have hct : ∀ ct : σ, Inside K b { t with ct := ct } := fun _ => ⟨⟨ht.1.root, ht.1.caches⟩, ht.2⟩
    rw [ends_bind, ends_codeOf]
    refine ends_zoom.mpr ((henv.readBlock vbn t.ct).mono (fun c ct hc => ?_) fun e ct he => ?_)
    · obtain ⟨ib, hib, hin⟩ := hc
      refine ⟨(hct ct).setCache vbn fun c' ib' hc' hib' => ?_, trivial⟩
      cases hc'
      rw [hib] at hib'
      cases hib'
      exact hin
    · subst he
      exact ⟨hct ct, by decide⟩

/-- A block is entered at its first entry, unless the walk goes backwards. -/
theorem pushCacheStack_safe (henv : EnvIn K env) (flags : WalkFlags) (hb : b → ¬ (flags.getLast ∨ flags.getPrev)) :
    Safe K b (fun _ => True) (pushCacheStack env flags) := by
  unfold pushCacheStack
  refine Upholds.get_bind fun t _ => Upholds.ite (fun _ => Upholds.throw (by decide)) fun _ => ?_
  refine currentIe_safe.bind fun ie _ => (indexBlockRead_safe henv ie.vbn).bind fun cache _ => ?_
  refine (getIb_safe cache).bind fun ib hib => Upholds.modify fun t ht => ⟨⟨ht.1.root, ht.1.caches⟩, fun hb' f hf => ?_⟩
  dsimp only at hf
  rw [if_neg (hb hb')] at hf
  cases hf
  exact hib.first

theorem getPrevIe_safe : Safe (σ := σ) K False (fun _ => True) getPrevIe := by
  unfold getPrevIe
  refine top_safe.bind fun f _ => currentIe_safe.bind fun ie _ => ?_
  refine Upholds.ite (fun _ => Upholds.throw (by decide)) fun _ => (setPosition_safe _).bind fun _ _ => ?_
  refine currentIe_safe.bind fun prev _ => Upholds.ite (fun _ => ?_) fun _ => Upholds.pure trivial
  exact Upholds.ite (fun _ => Upholds.pure trivial) fun _ => Upholds.throw (by decide)

theorem popCacheStack_safe (flags : WalkFlags) : Safe (σ := σ) K False (fun _ => True) (popCacheStack flags) := by
  unfold popCacheStack
  refine Upholds.get_bind fun t ht => Upholds.ite (fun _ => Upholds.throw (by decide)) fun _ => ?_
  refine (Upholds.set ⟨⟨ht.1.root, ht.1.caches⟩, False.elim⟩).bind fun _ _ => ?_
  exact Upholds.ite (fun _ => getPrevIe_safe) fun _ => Upholds.pure trivial

theorem addOrRemoveIb_safe (henv : EnvIn K env) (flags : WalkFlags) :
    Safe K b (fun _ => True) (addOrRemoveIb env flags) := by
  unfold addOrRemoveIb
  refine Upholds.ite (fun _ => top_safe.bind fun f _ => ?_) fun _ => Upholds.pure trivial
  exact (cacheVbn_safe f.cache).bind fun vbn _ => onCt_safe (henv.freeBlock vbn)

theorem descend_safe (henv : EnvIn K env) (flags : WalkFlags) (n : ℕ) :
    Safe K False (fun _ => True) (descend env flags n) := by
  induction n with
  | zero => exact Upholds.throw (by decide)
  | succ n ih =>
    unfold descend
    refine currentIe_safe.bind fun ie _ => Upholds.ite (fun _ => ?_) fun _ => Upholds.pure trivial
    exact (pushCacheStack_safe henv flags False.elim).bind fun _ _ => ih

theorem ascend_safe (henv : EnvIn K env) (flags : WalkFlags) (n : ℕ) :
    Safe K False (fun _ => True) (ascend env flags n) := by
  induction n with
  | zero => exact Upholds.throw (by decide)
  | succ n ih =>
    unfold ascend
    refine currentIe_safe.bind fun ie _ => Upholds.ite (fun _ => ?_) fun _ => Upholds.pure trivial
    refine (addOrRemoveIb_safe henv flags).bind fun _ _ => Upholds.ite (fun _ => ?_) fun _ =>
      (popCacheStack_safe flags).bind fun _ _ => ih
    refine Upholds.ite (fun _ => Upholds.pure trivial) fun _ => getPrevIe_safe.bind fun r _ => ?_
    cases r with
    | entry => exact Upholds.pure trivial
    | gettoBegin => exact (popCacheStack_safe flags).bind fun _ _ => ih

theorem getCurrentIe_safe (henv : EnvIn K env) (flags : WalkFlags) :
    Safe K False (fun _ => True) (getCurrentIe env flags) :=
  (descend_safe henv flags _).bind fun _ _ => ascend_safe henv flags _

/-! ## Search -/

/-- The cursor moves on within the block. -/
theorem getNextIe_safe : Safe (σ := σ) K b (fun _ => True) getNextIe := by
  unfold getNextIe
  refine top_safe.bind fun f hf => currentIe_safe.bind fun ie _ => ?_
  refine Upholds.ite (fun _ => Upholds.throw (by decide)) fun _ => (getIb_safe f.cache).bind fun ib _ => ?_
  have hpos : Safe (σ := σ) K b (fun _ => True) (setPosition (f.position + ie.len)) := by
    refine Upholds.modify fun t ht => ⟨⟨ht.1.root, ht.1.caches⟩, fun hb f' hf' => ?_⟩
    dsimp only at hf'
    split at hf'
    · cases hf'
      exact (hf hb).trans_le (Nat.le_add_right _ _)
    · cases hf'
  refine hpos.bind fun _ _ => Upholds.ite (fun _ => Upholds.throw (by decide)) fun _ => ?_
  exact currentIe_safe.bind fun next _ =>
    Upholds.ite (fun _ => Upholds.throw (by decide)) fun _ => Upholds.pure trivial

theorem searchBlock_safe {key value : Bytes} (hkey : Comparable K env.cr key value) (n : ℕ) :
    Safe K True (fun _ => True) (searchBlock env key value n) := by
  induction n with
  | zero => exact Upholds.throw (by decide)
  | succ n ih =>
    unfold searchBlock
    refine currentIe_safe.bind fun ie hie => Upholds.ite (fun _ => Upholds.pure trivial) fun hend => ?_
    have hin : K ie.key ie.value := (hie.1 trivial).resolve_left hend
    refine Upholds.fromExcept_bind (fun e he heq => hkey ie hin (heq ▸ he)) fun ret _ => ?_
    refine Upholds.ite (fun _ => Upholds.pure trivial) fun _ => Upholds.ite (fun _ => Upholds.pure trivial) fun _ => ?_
    exact getNextIe_safe.bind fun _ _ => ih

theorem searchLevels_safe (henv : EnvIn K env) {key value : Bytes} (hkey : Comparable K env.cr key value) (n : ℕ) :
    Safe K True (fun _ => True) (searchLevels env key value n) := by
  induction n with
  | zero => exact Upholds.throw (by decide)
  | succ n ih =>
    unfold searchLevels
    refine top_safe.bind fun f _ => (getIb_safe f.cache).bind fun ib _ => ?_
    refine (searchBlock_safe hkey _).bind fun found _ => Upholds.ite (fun _ => Upholds.pure trivial) fun _ => ?_
    refine currentIe_safe.bind fun ie _ => Upholds.ite (fun _ => Upholds.throw (by decide)) fun _ => ?_
    exact (pushCacheStack_safe henv {} fun _ h => by simp at h).bind fun _ _ => ih

theorem Inside.weaken (ht : Inside K b t) : Inside K False t := ⟨ht.1, False.elim⟩

/-- A search fails no `ASSERT` if its key is not empty and compares with what is in the tree. -/
theorem searchKeyInternal_safe (henv : EnvIn K env) {key value : Bytes} (hne : key ≠ [])
    (hkey : Comparable K env.cr key value) : Safe K False (fun _ => True) (searchKeyInternal env key value) := by
  intro t ht
  unfold searchKeyInternal
  rw [ends_bind, ends_assertThat]
  refine ⟨fun _ => ?_, fun h => absurd hne h⟩
  refine (resetCacheStack_ends ht.1).seq' (fun _ t' ht' => ?_) fun _ _ h => h.elim
  exact (searchLevels_safe henv hkey _ t' ht').mono (fun _ _ h => ⟨h.1.weaken, trivial⟩) fun _ _ h => ⟨h.1.weaken, h.2⟩

theorem getToNearKey_safe (n : ℕ) : Safe (σ := σ) K False (fun _ => True) (getToNearKey n) := by
  induction n with
  | zero => exact Upholds.throw (by decide)
  | succ n ih =>
    unfold getToNearKey
    refine currentIe_safe.bind fun ie _ => Upholds.ite (fun _ => ?_) fun _ => Upholds.pure trivial
    refine (Safe.codeOf (popCacheStack_safe {})).bind fun r _ => ?_
    cases r with
    | ok _ => exact ih
    | error _ => exact Upholds.pure trivial

theorem indexSearchKeyNolock_safe (henv : EnvIn K env) {key value : Bytes} (hkey : Comparable K env.cr key value) :
    Safe K False (fun _ => True) (indexSearchKeyNolock env key value) := by
  unfold indexSearchKeyNolock
  refine Upholds.ite (fun _ => Upholds.throw (by decide)) fun hne => ?_
  refine (Safe.codeOf (searchKeyInternal_safe henv hne hkey)).bind fun r hr => ?_
  cases r with
  | ok _ => exact Upholds.pure trivial
  | error ret =>
    have hret := hr.2 ret rfl
    refine Upholds.ite (fun _ => ?_) fun _ => Upholds.throw hret
    exact (getToNearKey_safe _).bind fun _ _ => Upholds.throw hret

/-! ## Insertion -/

theorem insertInto_safe (ref : CacheRef) {ie : IndexEntry} (hie : EntryIn K ie) (pos : ℕ) :
    Safe (σ := σ) K b (fun _ => True) (insertInto ref ie pos) := by
  unfold insertInto
  refine (getIb_safe ref).bind fun ib hib => ?_
  exact (Safe.returns (insertIe_in hib hie pos)).bind fun ib' hib' => setIb_safe hib' ref

theorem insertBehind_safe {src : IndexBlock} {ie : IndexEntry} (hie : EntryIn K ie) (mid pos newVbn : ℕ) :
    Safe (σ := σ) K b (fun _ => True) (insertBehind src ie mid pos newVbn) := by
  unfold insertBehind
  refine Upholds.ite (fun _ => (getIb_safe _).bind fun newIb _ => ?_) fun _ => Upholds.pure trivial
  refine Upholds.fromExcept_bind (fun e he => getIe_error he) fun midIe _ => insertInto_safe _ hie _

theorem insertAhead_safe (f : Frame) {ie : IndexEntry} (hie : EntryIn K ie) (mid : ℕ) :
    Safe (σ := σ) K b (fun _ => True) (insertAhead f ie mid) :=
  Upholds.ite (fun _ => Upholds.pure trivial) fun _ => insertInto_safe _ hie _

theorem splitTail_safe (henv : EnvIn K env) {ie : IndexEntry} (hie : EntryIn K ie) :
    Safe K False (fun _ => True) (splitTail env ie) := by
  unfold splitTail
  refine top_safe.bind fun f _ => (getIb_safe f.cache).bind fun ib hib => ?_
  refine (allocObjBlockAndCache_safe henv).bind fun newVbn _ => ?_
  refine (Safe.returns (copyIbTail_in hib _)).bind fun r hr => ?_
  refine (setIb_safe hr.2 _).bind fun _ _ => (setIb_safe hr.1 _).bind fun _ _ => ?_
  refine (insertBehind_safe hie _ _ _).bind fun _ _ => (setCacheDirty_safe _).bind fun _ _ => ?_
  exact (setIbDirty_safe henv).bind fun _ _ => Upholds.pure trivial

/-- The middle entry is one of the block, since the block could be cut there. -/
theorem splitHead_safe {ie : IndexEntry} (hie : EntryIn K ie) (mid newVbn : ℕ) :
    Safe (σ := σ) K False (EntryIn K) (splitHead ie mid newVbn) := by
  unfold splitHead
  refine top_safe.bind fun f _ => (getIb_safe f.cache).bind fun src hsrc => ?_
  refine Upholds.fromExcept_bind (fun e he => getIe_error he) fun midIe hmid => ?_
  refine (cacheVbn_safe f.cache).bind fun vbn _ => (Safe.returns (cutIbTail_in hsrc mid)).bind fun ib hib => ?_
  refine (setIb_safe hib.1 _).bind fun _ _ => (insertAhead_safe f hie mid).bind fun _ _ => ?_
  refine (popCacheStack_safe {}).bind fun _ _ => top_safe.bind fun f' _ => ?_
  exact (setFrameVbn_safe f' newVbn).bind fun _ _ => Upholds.pure (dumpIeAddVbn_in ((hsrc.getIe hmid).1 hib.2) vbn)

theorem splitIb_safe (henv : EnvIn K env) {ie : IndexEntry} (hie : EntryIn K ie) :
    Safe K False (EntryIn K) (splitIb env ie) :=
  (splitTail_safe henv hie).bind fun _ _ => splitHead_safe hie _ _

theorem reparentRoot_safe (henv : EnvIn K env) : Safe K False (fun _ => True) (reparentRoot env) := by
  unfold reparentRoot
  refine Upholds.get_bind fun t _ => Upholds.ite (fun _ => Upholds.throw (by decide)) fun _ => ?_
  refine top_safe.bind fun f _ => (getIb_safe f.cache).bind fun oldIb hold => ?_
  refine (allocObjBlockAndCache_safe henv).bind fun newVbn _ => ?_
  have hcopy : BlockIn K { oldIb with allocSize := blockSize } := ⟨hold.first, hold.begin, hold.entries⟩
  refine (setIb_safe hcopy _).bind fun _ _ => (setCacheDirty_safe _).bind fun _ _ => ?_
  have hnew : BlockIn K (initIb true oldIb.allocSize) := initIb_in true oldIb.allocSize
  refine (Safe.returns (setIeVbn_in hnew _ _)).bind fun ib hib => ?_
  refine (setIb_safe hib _).bind fun _ _ => (Safe.codeOf (setIbDirty_safe henv)).bind fun r hr => ?_
  cases r with
  | error ret =>
    refine (Upholds.modify fun t ht => ht.setCache newVbn fun c ib hc hib => ?_).bind fun _ _ =>
      Upholds.throw (hr.2 ret rfl)
    obtain ⟨c₀, -, rfl⟩ := Option.map_eq_some_iff.mp hc
    cases hib
  | ok _ =>
    refine (getIb_safe f.cache).bind fun ib _ => (setPosition_safe _).bind fun _ _ => ?_
    exact Upholds.modify fun t ht => ⟨⟨ht.1.root, ht.1.caches⟩, False.elim⟩

theorem treeInsertIe_safe (henv : EnvIn K env) {ie : IndexEntry} (hie : EntryIn K ie) (n : ℕ) :
    Safe K False (fun _ => True) (treeInsertIe env ie n) := by
  induction n generalizing ie with
  | zero => exact Upholds.throw (by decide)
  | succ n ih =>
    unfold treeInsertIe
    refine top_safe.bind fun f _ => (getIb_safe f.cache).bind fun ib _ => ?_
    refine Upholds.ite (fun _ => (insertInto_safe _ hie _).bind fun _ _ => setIbDirty_safe henv) fun _ => ?_
    refine Upholds.get_bind fun t _ => Upholds.ite (fun _ => ?_) fun _ => ?_
    · refine (Safe.codeOf (reparentRoot_safe henv)).bind fun r _ => ?_
      cases r with
      | ok _ => exact ih hie
      | error _ => exact Upholds.throw (by decide)
    · refine (Safe.codeOf (splitIb_safe henv hie)).bind fun r hr => ?_
      cases r with
      | ok midIe => exact ih (hr.1 midIe rfl)
      | error _ => exact Upholds.throw (by decide)

/-! ## Removal -/

theorem freeEmptyIbs_safe (henv : EnvIn K env) (n : ℕ) : Safe K False (fun _ => True) (freeEmptyIbs env n) := by
  induction n with
  | zero => exact Upholds.throw (by decide)
  | succ n ih =>
    unfold freeEmptyIbs
    refine top_safe.bind fun f₀ _ => (cacheVbn_safe f₀.cache).bind fun vbn _ => ?_
    refine (onCt_safe (henv.freeBlock vbn)).bind fun _ _ => (freeObjCache_safe vbn).bind fun _ _ => ?_
    refine (popCacheStack_safe {}).bind fun _ _ => top_safe.bind fun f _ => ?_
    refine (getIb_safe f.cache).bind fun ib hib => Upholds.fromExcept_bind (fun e he => getIe_error he) fun ie _ => ?_
    refine Upholds.ite (fun _ => Upholds.pure trivial) fun _ => Upholds.get_bind fun t _ => ?_
    refine Upholds.ite (fun _ => (setIb_safe (makeIbSmall_in hib) _).bind fun _ _ => ?_) fun _ => ih
    exact (setIbDirty_safe henv).bind fun _ _ => Upholds.pure trivial

theorem checkRemovedIb_safe (henv : EnvIn K env) : Safe K False (fun _ => True) (checkRemovedIb env) := by
  unfold checkRemovedIb
  refine top_safe.bind fun f _ => (getIb_safe f.cache).bind fun ib _ => ?_
  refine Upholds.fromExcept_bind (fun e he => getIe_error he) fun ie _ => ?_
  refine Upholds.ite (fun _ => Upholds.pure trivial) fun _ => Upholds.get_bind fun t _ => ?_
  exact Upholds.ite (fun _ => Upholds.pure trivial) fun _ => freeEmptyIbs_safe henv _

/-- The entry that moves is one of the block, since it could be removed there. -/
theorem moveToLeaf_safe (henv : EnvIn K env) (pos : ℕ) (flags : WalkFlags) :
    Safe K False (fun _ => True) (moveToLeaf env pos flags) := by
  unfold moveToLeaf
  refine top_safe.bind fun f _ => (getIb_safe f.cache).bind fun ib hib => ?_
  refine Upholds.fromExcept_bind (fun e he => getIe_error he) fun ie hie => ?_
  refine Upholds.fromExcept_bind (removeIe_in hib pos).2 fun ib' hib' => ?_
  have hmoved : EntryIn K (dumpIeDelVbn ie) := dumpIeDelVbn_in ((hib.getIe hie).1 (removeIe_ok hib hib'))
  refine (setIb_safe ((removeIe_in hib pos).1 ib' hib') _).bind fun _ _ => (setIbDirty_safe henv).bind fun _ _ => ?_
  refine (setPosition_safe pos).bind fun _ _ => (getCurrentIe_safe henv flags).bind fun _ _ => ?_
  exact treeInsertIe_safe henv hmoved _

theorem removeLeaf_safe (henv : EnvIn K env) : Safe K False (fun _ => True) (removeLeaf env) := by
  unfold removeLeaf
  refine top_safe.bind fun f₀ _ => (getIb_safe f₀.cache).bind fun ib₀ hib₀ => ?_
  refine (Safe.returns (removeIe_in hib₀ _)).bind fun ib₁ hib₁ => (setIb_safe hib₁ _).bind fun _ _ => ?_
  refine (setIbDirty_safe henv).bind fun _ _ => (checkRemovedIb_safe henv).bind fun freed _ => ?_
  refine Upholds.ite (fun _ => top_safe.bind fun f _ => currentIe_safe.bind fun ie _ => ?_) fun _ =>
    Upholds.pure trivial
  refine Upholds.ite (fun _ => (getIb_safe f.cache).bind fun ib hib => ?_) fun _ => moveToLeaf_safe henv _ _
  refine Upholds.fromExcept_bind (fun e he => getIe_error he) fun prevIe _ => ?_
  refine (Safe.returns (setIeVbn_in hib _ _)).bind fun ib' hib' => (setIb_safe hib' _).bind fun _ _ => ?_
  exact moveToLeaf_safe henv _ _

theorem popTo_safe (d n : ℕ) : Safe (σ := σ) K False (fun _ => True) (popTo d n) := by
  induction n with
  | zero => exact Upholds.pure trivial
  | succ n ih =>
    unfold popTo
    refine Upholds.get_bind fun t _ => Upholds.ite (fun _ => ?_) fun _ => Upholds.pure trivial
    exact (popCacheStack_safe {}).bind fun _ _ => ih

/-- The current entry is not a BEGIN entry. -/
def NotBegin (t : ObjectTree σ) : Prop := ∀ e t', currentIe t = .ok e t' → e.isBegin = false

theorem top_keeps : Keeps (fun t : ObjectTree σ => t) top := by
  refine Keeps.get.bind fun t => ?_
  cases t.stack with
  | nil => exact Keeps.throw _
  | cons f fs => exact Keeps.pure f

theorem getIb_keeps (ref : CacheRef) : Keeps (fun t : ObjectTree σ => t) (getIb ref) := by
  unfold getIb
  cases ref with
  | root => exact Keeps.get.bind fun t => Keeps.pure _
  | block vbn =>
    refine Keeps.get.bind fun t => ?_
    split
    · exact Keeps.pure _
    · exact Keeps.throw _

theorem currentIe_keeps : Keeps (fun t : ObjectTree σ => t) currentIe :=
  top_keeps.bind fun f => (getIb_keeps f.cache).bind fun _ => Keeps.fromExcept _

/-- A walk forwards ends on an entry. -/
theorem ascend_notBegin {flags : WalkFlags} (hflags : ¬ (flags.getLast ∨ flags.getPrev)) (n : ℕ) (t : ObjectTree σ) :
    Ends (ascend env flags n) t (fun _ t' => NotBegin t') fun _ _ => True := by
  induction n generalizing t with
  | zero => trivial
  | succ n ih =>
    unfold ascend
    rw [ends_bind]
    cases hcur : currentIe t with
    | error e t₁ => exact (ends_of_error hcur).mpr trivial
    | ok ie t₁ =>
      rw [ends_of_ok hcur]
      obtain rfl : t₁ = t := currentIe_keeps.of_ok hcur
      split_ifs with hedge
      · refine Ends.seq (ends_true _ _) fun _ t₂ _ => ?_
        exact Ends.seq (ends_true _ _) fun _ t₃ _ => ih t₃
      · intro e t' he
        rw [hcur] at he
        cases he
        simp only [not_or, Bool.not_eq_true] at hedge
        exact hedge.2

theorem walkTree_notBegin (t : ObjectTree σ) :
    Ends (walkTree env {}) t (fun _ t' => NotBegin t') fun _ _ => True := by
  unfold walkTree getCurrentIe
  refine Ends.seq (ends_true _ _) fun _ t₁ _ => Ends.seq (ends_true _ _) fun _ t₂ _ => ?_
  exact ascend_notBegin (by simp) _ t₂

theorem walkTree_safe (henv : EnvIn K env) (flags : WalkFlags) : Safe K False (fun _ => True) (walkTree env flags) := by
  have hrest : Safe K False (fun _ => True) (getCurrentIe env flags) := getCurrentIe_safe henv flags
  unfold walkTree
  dsimp only
  split_ifs
  · exact (resetCacheStack_safe flags).bind fun _ _ => hrest
  · refine currentIe_safe.bind fun ie _ => ?_
    split_ifs
    · exact hrest
    · exact getPrevIe_safe.bind fun _ _ => hrest
  · exact hrest
  · exact getNextIe_safe.bind fun _ _ => hrest

/-- The entry that takes the place of the removed one is found by a walk forwards. -/
theorem removeNode_safe (henv : EnvIn K env) : Safe K False (fun _ => True) (removeNode env) := by
  unfold removeNode
  refine Upholds.get_bind fun t₀ _ => currentIe_safe.bind fun ie _ => ?_
  intro t ht
  refine ((walkTree_safe henv {} t ht).and (walkTree_notBegin t)).seq' (fun _ t₁ h₁ => ?_) fun _ _ h => h.1
  have hsucc : Ends currentIe t₁ (fun e t' => Inside K False t' ∧ EntryIn K e)
      fun r t' => Inside K False t' ∧ r ≠ .assertion := by
    have hsafe := currentIe_safe t₁ h₁.1.1
    cases hcur : currentIe t₁ with
    | error r t' => rwa [ends_of_error hcur] at hsafe ⊢
    | ok e t' =>
      rw [ends_of_ok hcur] at hsafe ⊢
      refine ⟨hsafe.1, hsafe.2.2.resolve_right ?_⟩
      simp [h₁.2 e t' hcur]
  refine hsucc.seq fun e t₂ h₂ => ?_
  have hrest : Safe K False (fun _ => True) (do
      popTo (depth t₀) (← get).stack.length
      setPosition ((← top).position - ie.len)
      let f ← top
      setIb f.cache (← fromExcept (removeIe (← getIb f.cache) f.position))
      setIbDirty env
      treeInsertIe env (dumpIeAddVbn e ie.vbn) insertFuel
      walkTree env {}
      removeLeaf env) := by
    refine Upholds.get_bind fun t _ => (popTo_safe _ _).bind fun _ _ => top_safe.bind fun f₀ _ => ?_
    refine (setPosition_safe _).bind fun _ _ => top_safe.bind fun f _ => (getIb_safe f.cache).bind fun ib hib => ?_
    refine (Safe.returns (removeIe_in hib _)).bind fun ib' hib' => (setIb_safe hib' _).bind fun _ _ => ?_
    refine (setIbDirty_safe henv).bind fun _ _ => (treeInsertIe_safe henv (dumpIeAddVbn_in h₂.2 _) _).bind fun _ _ => ?_
    exact (walkTree_safe henv {}).bind fun _ _ => removeLeaf_safe henv
  exact hrest t₂ h₂.1

theorem treeRemoveIe_safe (henv : EnvIn K env) : Safe K False (fun _ => True) (treeRemoveIe env) := by
  unfold treeRemoveIe
  refine currentIe_safe.bind fun ie _ => Upholds.ite (fun _ => Upholds.throw (by decide)) fun _ => ?_
  exact Upholds.ite (fun _ => removeNode_safe henv) fun _ => removeLeaf_safe henv

/-! ## By key -/

theorem indexRemoveKeyNolock_safe (henv : EnvIn K env) {key : Bytes} (hkey : Comparable K env.cr key []) :
    Safe K False (fun _ => True) (indexRemoveKeyNolock env key) := by
  unfold indexRemoveKeyNolock
  refine Upholds.ite (fun _ => Upholds.throw (by decide)) fun hne => ?_
  exact (searchKeyInternal_safe henv hne hkey).bind fun _ _ => treeRemoveIe_safe henv

theorem newIe_in {key value : Bytes} (hK : K key value) : Returns (EntryIn K) (newIe key value) := by
  unfold newIe
  dsimp only
  split_ifs
  · exact returns_memory
  · exact returns_ok (.inr hK)

theorem indexInsertKeyNolock_safe (henv : EnvIn K env) {key value : Bytes} (hK : K key value)
    (hkey : Comparable K env.cr key value) : Safe K False (fun _ => True) (indexInsertKeyNolock env key value) := by
  unfold indexInsertKeyNolock
  refine Upholds.ite (fun _ => Upholds.throw (by decide)) fun hne => ?_
  refine (Safe.codeOf (searchKeyInternal_safe henv hne hkey)).bind fun r hr => ?_
  cases r with
  | ok _ => exact Upholds.throw (by decide)
  | error ret =>
    refine Upholds.ite (fun _ => Upholds.throw (hr.2 ret rfl)) fun _ => (Safe.returns (newIe_in hK)).bind fun ie hie => ?_
    exact treeInsertIe_safe henv hie _

theorem indexUpdateValue_safe (henv : EnvIn K env) {key value : Bytes} (hK : K key value)
    (hremove : Comparable K env.cr key []) (hkey : Comparable K env.cr key value) :
    Safe K False (fun _ => True) (indexUpdateValue env key value) := by
  unfold indexUpdateValue
  refine Upholds.ite (fun _ => Upholds.throw (by decide)) fun _ => ?_
  exact (Safe.codeOf (indexRemoveKeyNolock_safe henv hremove)).bind fun _ _ => indexInsertKeyNolock_safe henv hK hkey

end State

end IndexFs.Tree
