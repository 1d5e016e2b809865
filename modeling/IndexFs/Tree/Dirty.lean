import IndexFs.Tree.Cursor

/-!
# Copy on write

`set_ib_dirty` gives the clean blocks from the cursor up to the first dirty one new
numbers, frees the old ones and keeps the pointers between them in step.

Results:

* `Moved m t t' old new`: the blocks `old` became `new`; every other block in use
  is as it was.
* `setIbDirty_spec`: the path gets new numbers (`Path.relabel`) and stays a path of
  the tree; the content of the block on top may be anything and is kept.
-/

namespace IndexFs.Tree

open IndexFs.Multiway

variable {σ : Type} {m : ContainerModel σ} {t t' t'' : ObjectTree σ} {H h : ℕ}

/-! ## Changing one block -/

/-- The states differ in the block of one cache only. -/
structure OnlyAt (t t' : ObjectTree σ) (ref : CacheRef) : Prop where
  caches : ∀ v, ref ≠ .block v → t'.caches v = t.caches v
  rootIb : ref ≠ .root → t'.rootIb = t.rootIb
  rootVbn : t'.rootVbn = t.rootVbn
  ct : t'.ct = t.ct
  stack : t'.stack = t.stack
  maxDepth : t'.maxDepth = t.maxDepth

theorem OnlyAt.refl {ref : CacheRef} : OnlyAt t t ref := ⟨fun _ _ => rfl, fun _ => rfl, rfl, rfl, rfl, rfl⟩

theorem OnlyAt.trans {ref : CacheRef} (h1 : OnlyAt t t' ref) (h2 : OnlyAt t' t'' ref) :
    OnlyAt t t'' ref where
  caches v hv := (h2.caches v hv).trans (h1.caches v hv)
  rootIb hv := (h2.rootIb hv).trans (h1.rootIb hv)
  rootVbn := h2.rootVbn.trans h1.rootVbn
  ct := h2.ct.trans h1.ct
  stack := h2.stack.trans h1.stack
  maxDepth := h2.maxDepth.trans h1.maxDepth

theorem OnlyAt.sameOn {up : TPath H h} {i : ℕ} (ho : OnlyAt t t' (refOf up i)) {l : List ℕ} (hi : i ∉ l) :
    SameOn m t t' l := by
  intro v hv
  refine ⟨ho.caches v ?_, by rw [ho.ct]⟩
  cases up with
  | top => exact CacheRef.noConfusion
  | down j b a up =>
    intro h
    injection h with h
    exact hi (h ▸ hv)

theorem HoldsPath.onlyAt {up : TPath H h} {i : ℕ} (hp : HoldsPath m t up i)
    (ho : OnlyAt t t' (refOf up i)) (hi : i ∉ up.spine ++ up.side) : HoldsPath m t' up i := by
  cases up with
  | top => exact ho.rootVbn.trans hp
  | down j b a up => exact hp.congr (ho.sameOn hi) (ho.rootIb CacheRef.noConfusion) ho.rootVbn

theorem Held.onlyAt {up : TPath H h} {i k : ℕ} {n : TNode k} (hn : Held m t n)
    (ho : OnlyAt t t' (refOf up i)) (hi : i ∉ n.labels) : Held m t' n := hn.congr (ho.sameOn hi)

/-- `setIb` as a function on states. -/
def putIb (t : ObjectTree σ) (ref : CacheRef) (ib : IndexBlock) : ObjectTree σ :=
  match ref with
  | .root => { t with rootIb := ib }
  | .block v =>
    { t with caches := Function.update t.caches v ((t.caches v).map fun c => { c with ib := some ib }) }

theorem ends_setIb {ref : CacheRef} {ib : IndexBlock} {Q : Unit → ObjectTree σ → Prop}
    {F : ErrorCode → ObjectTree σ → Prop} : Ends (setIb ref ib) t Q F ↔ Q () (putIb t ref ib) := by
  cases ref <;> rfl

theorem putIb_onlyAt (ref : CacheRef) (ib : IndexBlock) : OnlyAt t (putIb t ref ib) ref := by
  cases ref with
  | root => exact ⟨fun _ _ => rfl, fun h => absurd rfl h, rfl, rfl, rfl, rfl⟩
  | block v =>
    refine ⟨fun u hu => ?_, fun _ => rfl, rfl, rfl, rfl, rfl⟩
    exact Function.update_of_ne (fun h => hu (congrArg CacheRef.block h.symm)) _ _

theorem ibIn_putIb {ref : CacheRef} {ib₀ ib : IndexBlock} (h : ibIn t ref = some ib₀) :
    ibIn (putIb t ref ib) ref = some ib := by
  cases ref with
  | root => rfl
  | block v =>
    rw [ibIn_block] at h ⊢
    cases hc : t.caches v with
    | none => simp [hc] at h
    | some bc => simp [putIb, hc]

/-- A fresh cache gets a block. -/
theorem ibIn_putIb_block {v : ℕ} (h : (t.caches v).isSome) (ib : IndexBlock) :
    ibIn (putIb t (.block v) ib) (.block v) = some ib := by
  obtain ⟨bc, hc⟩ := Option.isSome_iff_exists.mp h
  rw [ibIn_block]
  simp [putIb, hc]

/-- `setCacheDirty` as a function on states. -/
def markDirty (t : ObjectTree σ) (ref : CacheRef) : ObjectTree σ :=
  match ref with
  | .root => { t with rootState := .dirty }
  | .block v =>
    { t with
      caches := Function.update t.caches v
        ((t.caches v).map fun c => { c with state := .dirty, flush := false }) }

theorem ends_setCacheDirty {ref : CacheRef} {Q : Unit → ObjectTree σ → Prop}
    {F : ErrorCode → ObjectTree σ → Prop} : Ends (setCacheDirty ref) t Q F ↔ Q () (markDirty t ref) := by
  cases ref <;> rfl

theorem markDirty_onlyAt (ref : CacheRef) : OnlyAt t (markDirty t ref) ref := by
  cases ref with
  | root => exact ⟨fun _ _ => rfl, fun _ => rfl, rfl, rfl, rfl, rfl⟩
  | block v =>
    refine ⟨fun u hu => ?_, fun _ => rfl, rfl, rfl, rfl, rfl⟩
    exact Function.update_of_ne (fun h => hu (congrArg CacheRef.block h.symm)) _ _

theorem ibIn_markDirty (ref : CacheRef) : ibIn (markDirty t ref) ref = ibIn t ref := by
  cases ref with
  | root => rfl
  | block v =>
    rw [ibIn_block, ibIn_block]
    cases hc : t.caches v with
    | none => simp [markDirty, hc]
    | some bc => simp [markDirty, hc]

/-! ## Blocks that get new numbers -/

/-- The blocks `old` became `new`; the other blocks in use are as they were. -/
structure Moved (m : ContainerModel σ) (t t' : ObjectTree σ) (old new : List ℕ) : Prop where
  inv : m.Inv t'.ct
  nodup : new.Nodup
  fresh : ∀ v ∈ new, v ∈ m.used t'.ct ∧ v ≠ 0 ∧ (v ∈ old ∨ v ∉ m.used t.ct)
  kept : ∀ v ∈ m.used t.ct, v ∉ old → v ∈ m.used t'.ct ∧ t'.caches v = t.caches v ∧
    m.stored t'.ct v = m.stored t.ct v
  maxDepth : t'.maxDepth = t.maxDepth

theorem Moved.owned {old new rest : List ℕ} (hm : Moved m t t' old new)
    (ho : Owned m t (old ++ rest)) : Owned m t' (new ++ rest) := by
  have hdisj := List.disjoint_of_nodup_append ho.nodup
  have hkeep : ∀ v ∈ rest, v ∈ m.used t.ct ∧ v ∉ old := fun v hv =>
    ⟨(ho.used v (by simp [hv])).1, fun h => hdisj h hv⟩
  constructor
  · refine List.Nodup.append hm.nodup ho.nodup.of_append_right fun v hv hv' => ?_
    rcases (hm.fresh v hv).2.2 with h | h
    · exact hdisj h hv'
    · exact h (hkeep v hv').1
  · intro v hv
    rcases List.mem_append.mp hv with hv | hv
    · exact ⟨(hm.fresh v hv).1, (hm.fresh v hv).2.1⟩
    · exact ⟨(hm.kept v (hkeep v hv).1 (hkeep v hv).2).1, (ho.used v (by simp [hv])).2⟩

theorem Moved.owned_cons {i j : ℕ} {rest : List ℕ} (hm : Moved m t t' [i] [j])
    (ho : Owned m t (i :: rest)) : Owned m t' (j :: rest) := hm.owned ho

theorem Moved.sameOn {old new rest : List ℕ} (hm : Moved m t t' old new)
    (ho : Owned m t (old ++ rest)) : SameOn m t t' rest := by
  have hdisj := List.disjoint_of_nodup_append ho.nodup
  intro v hv
  exact (hm.kept v (ho.used v (by simp [hv])).1 fun h => hdisj h hv).2

theorem Moved.trans {i j : ℕ} {old new : List ℕ} (h1 : Moved m t t' [i] [j]) (h2 : Moved m t' t'' old new)
    (ho : Owned m t (i :: old)) : Moved m t t'' (i :: old) (j :: new) := by
  have hij := h1.fresh j (by simp)
  have hj : j ∉ old := fun hj => by
    rcases hij.2.2 with h | h
    · exact (List.nodup_cons.mp ho.nodup).1 ((List.mem_singleton.mp h) ▸ hj)
    · exact h (ho.used j (by simp [hj])).1
  refine ⟨h2.inv, List.nodup_cons.mpr ⟨fun hjn => ?_, h2.nodup⟩, fun v hv => ?_, fun v hv hvo => ?_,
    h2.maxDepth.trans h1.maxDepth⟩
  · rcases (h2.fresh j hjn).2.2 with h | h
    · exact hj h
    · exact h hij.1
  · rcases List.mem_cons.mp hv with rfl | hv
    · exact ⟨(h2.kept v hij.1 hj).1, hij.2.1, hij.2.2.imp_left fun h => by simp_all⟩
    · obtain ⟨hu, h0, h⟩ := h2.fresh v hv
      refine ⟨hu, h0, ?_⟩
      by_cases hvi : v = i
      · exact .inl (by simp [hvi])
      · refine h.imp (fun h => by simp [h]) fun h hvu => h (h1.kept v hvu (by simpa using hvi)).1
  · simp only [List.mem_cons, not_or] at hvo
    obtain ⟨hu, hc, hs⟩ := h1.kept v hv (by simpa using hvo.1)
    obtain ⟨hu', hc', hs'⟩ := h2.kept v hu hvo.2
    exact ⟨hu', hc'.trans hc, hs'.trans hs⟩

theorem OnlyAt.moved {up : TPath H h} {i : ℕ} (ho : OnlyAt t t' (refOf up i)) (hinv : m.Inv t.ct)
    (hi : i ∈ m.used t.ct ∧ i ≠ 0) : Moved m t t' [i] [i] where
  inv := ho.ct ▸ hinv
  nodup := List.nodup_singleton i
  fresh v hv := by
    obtain rfl := List.mem_singleton.mp hv
    exact ⟨ho.ct ▸ hi.1, hi.2, .inl hv⟩
  kept v hv hvi := ⟨ho.ct ▸ hv, ho.sameOn (m := m) (l := [v]) (by simpa using Ne.symm (by simpa using hvi)) v
    (by simp)⟩
  maxDepth := ho.maxDepth

/-! ## One level -/

variable {env : TreeEnv σ} {fails : Prop}

theorem frames_cache (up : TPath H h) {f : Frame} (hf : f ∈ frames up) :
    f.cache = .root ∨ ∃ v ∈ up.spine, f.cache = .block v := by
  induction up with
  | top => simp [frames] at hf
  | down i before after up ih =>
    rcases List.mem_cons.mp hf with rfl | hf
    · cases up with
      | top => exact .inl rfl
      | down j b a up => exact .inr ⟨i, by simp [Path.spine], rfl⟩
    · refine (ih hf).imp_right ?_
      rintro ⟨v, hv, h⟩
      exact ⟨v, by simp [Path.spine, hv], h⟩

/-- What `renumber` leaves behind at the block `i` below the path `up`, when it got
the number `n`. The entry above still says `i`. -/
structure Renumbered (m : ContainerModel σ) (t t' : ObjectTree σ) (up : TPath H h) (i n : ℕ) : Prop where
  inv : m.Inv t'.ct
  ne_zero : n ≠ 0
  fresh : n ∉ m.used t.ct
  used : n ∈ m.used t'.ct
  ib : ibIn t' (refOf up n) = ibIn t (refOf up i)
  kept : ∀ v ∈ m.used t.ct, v ∈ m.used t'.ct ∧ m.stored t'.ct v = m.stored t.ct v ∧
    (v ≠ i → t'.caches v = t.caches v)
  root : up.spine ≠ [] → t'.rootIb = t.rootIb ∧ t'.rootVbn = t.rootVbn
  rootVbn : up.spine = [] → t'.rootVbn = n
  maxDepth : t'.maxDepth = t.maxDepth

theorem renumber_spec (hl : LawfulEnv env m fails) {up : TPath H h} {i pos : ℕ} {pre : List Frame}
    {ib : IndexBlock} (hinv : m.Inv t.ct)
    (hstack : t.stack = pre ++ ⟨refOf up i, pos⟩ :: frames up)
    (hpre : ∀ f ∈ pre, f.cache ≠ .block i) (hib : ibIn t (refOf up i) = some ib)
    (hup : HoldsPath m t up i) (hown : Owned m t (i :: up.spine)) :
    Ends (renumber env (refOf up i)) t
      (fun r t' => (r = none ∧ t' = t) ∨ ∃ n, r = some (i, n) ∧ Renumbered m t t' up i n ∧
        t'.stack = pre ++ ⟨refOf up n, pos⟩ :: frames up)
      (fun _ _ => fails) := by
  have hused : ∀ v ∈ i :: up.spine, v ∈ m.used t.ct := fun v hv => (hown.used v hv).1
  have hi := List.nodup_cons.mp hown.nodup
  unfold renumber
  cases up with
  | top =>
    rw [ends_bind]
    change Ends (cacheDirty CacheRef.root) _ _ _
    unfold cacheDirty
    rw [ends_bind, ends_get, ends_pure]
    split_ifs with hdirty
    · exact .inl ⟨rfl, rfl⟩
    · rw [ends_bind, ends_onCt]
      refine (hl.alloc t.ct hinv).mono (fun n c hpost => ?_) fun _ _ h => h.1
      obtain ⟨h0, hfresh, hn, hk⟩ := hpost
      refine Or.inr ⟨n, ?_, ⟨hk.1, h0, hfresh, hn, rfl, fun v hv => ?_, fun h => absurd rfl h,
        fun _ => rfl, rfl⟩, hstack⟩
      · exact congrArg (fun v => some (v, n)) hup
      · exact ⟨(hk.2 v hv).1, (hk.2 v hv).2, fun _ => rfl⟩
  | down j b a up =>
    rw [ends_bind]
    change Ends (cacheDirty (CacheRef.block i)) _ _ _
    change ibIn t (.block i) = _ at hib
    rw [ibIn_block] at hib
    cases hc : t.caches i with
    | none => simp [hc] at hib
    | some bc =>
      unfold cacheDirty
      rw [ends_bind, ends_get, hc, ends_pure]
      split_ifs with hdirty
      · exact .inl ⟨rfl, rfl⟩
      · rw [ends_bind, ends_onCt]
        refine (hl.alloc t.ct hinv).mono (fun n c hpost => ?_) fun _ _ h => h.1
        obtain ⟨h0, hfresh, hn, hk⟩ := hpost
        have hni : ∀ v ∈ m.used t.ct, v ≠ n := fun v hv h => hfresh (h ▸ hv)
        refine Or.inr ⟨n, rfl, ⟨hk.1, h0, hfresh, hn, ?_, fun v hv => ⟨(hk.2 v hv).1, (hk.2 v hv).2,
          fun hvi => ?_⟩, fun _ => ⟨rfl, rfl⟩, by simp [Path.spine], rfl⟩, ?_⟩
        · change ibIn _ (.block n) = ibIn t (.block i)
          rw [ibIn_block, ibIn_block]
          simp
        · dsimp only
          rw [Function.update_of_ne (hni v hv), Function.update_of_ne hvi]
        · -- no other level of the stack is in the renamed block
          have hmap : ∀ l : List Frame, (∀ f ∈ l, f.cache ≠ .block i) →
              (l.map fun f => if f.cache = .block i then { f with cache := .block n } else f) = l :=
            fun l hl => (List.map_congr_left (g := id) fun f hf => if_neg (hl f hf)).trans (List.map_id l)
          dsimp only
          rw [hstack, List.map_append, List.map_cons, hmap pre hpre, hmap (frames _)]
          · simp [refOf]
          · intro f hf hfi
            rcases frames_cache _ hf with h | ⟨v, hv, h⟩
            · rw [h] at hfi
              exact CacheRef.noConfusion hfi
            · rw [h] at hfi
              injection hfi with hvi
              exact hi.1 (hvi ▸ hv)

theorem ends_frameAt {pre fs : List Frame} {f : Frame} (h : t.stack = pre ++ f :: fs)
    {Q : Frame → ObjectTree σ → Prop} {F : ErrorCode → ObjectTree σ → Prop} :
    Ends (frameAt pre.length : TreeM σ Frame) t Q F ↔ Q f t := by
  unfold frameAt
  rw [ends_bind, ends_get, h]
  simp

theorem ends_setFrameVbn {f : Frame} {w : ℕ} {ib ib' : IndexBlock} (hib : ibIn t f.cache = some ib)
    (hset : setIeVbn ib f.position w = .ok ib') {Q : Unit → ObjectTree σ → Prop}
    {F : ErrorCode → ObjectTree σ → Prop} :
    Ends (setFrameVbn f w) t Q F ↔ Q () (putIb t f.cache ib') := by
  unfold setFrameVbn
  rw [ends_bind, ends_getIb hib, hset, ends_bind, ends_fromExcept_ok, ends_setIb]

theorem setChildVbn_spec {f : Frame} {w : ℕ} {ib ib' : IndexBlock} (hib : ibIn t f.cache = some ib)
    (hset : if w = 0 then ib' = ib else setIeVbn ib f.position w = .ok ib')
    {F : ErrorCode → ObjectTree σ → Prop} :
    Ends (setChildVbn f w) t (fun _ t' => OnlyAt t t' f.cache ∧ ibIn t' f.cache = some ib') F := by
  unfold setChildVbn
  by_cases hw : w = 0
  · rw [if_pos hw] at hset
    rw [if_neg (not_not.mpr hw), ends_pure, hset]
    exact ⟨.refl, hib⟩
  · rw [if_neg hw] at hset
    rw [if_pos hw, ends_setFrameVbn hib hset]
    exact ⟨putIb_onlyAt _ _, ibIn_putIb hib⟩

/-- The pointer to the block on top of which a path was renumbered is still the old one. -/
def HoldsStale (m : ContainerModel σ) (t : ObjectTree σ) (up : TPath H h) (i n : ℕ) : Prop :=
  match up with
  | .top => t.rootVbn = n
  | .down .. => HoldsPath m t up i

/-- One round of the loop of `set_ib_dirty`. -/
theorem setIbDirtyFrom_level (hl : LawfulEnv env m fails) {up : TPath H h} {i pos w N : ℕ}
    {pre : List Frame} {ib ib' : IndexBlock} (hinv : m.Inv t.ct)
    (hstack : t.stack = pre ++ ⟨refOf up i, pos⟩ :: frames up)
    (hpre : ∀ f ∈ pre, f.cache ≠ .block i) (hib : ibIn t (refOf up i) = some ib)
    (hset : if w = 0 then ib' = ib else setIeVbn ib pos w = .ok ib')
    (hup : HoldsPath m t up i) (hown : Owned m t (i :: (up.spine ++ up.side)))
    {Q : Unit → ObjectTree σ → Prop} {F : ErrorCode → ObjectTree σ → Prop} (hF : ∀ e t', fails → F e t')
    (hstop : ∀ t', t'.stack = t.stack → ibIn t' (refOf up i) = some ib' → HoldsPath m t' up i →
      Moved m t t' [i] [i] → Q () t')
    (hgo : ∀ n t', n ≠ 0 → n ∉ m.used t.ct → t'.stack = pre ++ ⟨refOf up n, pos⟩ :: frames up →
      ibIn t' (refOf up n) = some ib' → HoldsStale m t' up i n → Moved m t t' [i] [n] →
      Ends (setIbDirtyFrom env n N (pre.length + 1)) t' Q F) :
    Ends (setIbDirtyFrom env w (N + 1) pre.length) t Q F := by
  have hi := List.nodup_cons.mp hown.nodup
  have hown' : Owned m t (i :: up.spine) := hown.sublist ((List.sublist_append_left _ _).cons_cons i)
  unfold setIbDirtyFrom
  rw [ends_bind, ends_frameAt hstack]
  refine (renumber_spec hl hinv hstack hpre hib hup hown').seq' (fun r t₁ hr => ?_) fun e t' h => hF e t' h
  rcases hr with ⟨rfl, rfl⟩ | ⟨n, rfl, hren, hstack₁⟩
  · rw [ends_bind, ends_frameAt hstack]
    refine (setChildVbn_spec hib hset).seq fun _ t₂ hchild => ?_
    obtain ⟨ho, hib'⟩ := hchild
    rw [ends_pure]
    exact hstop t₂ ho.stack hib' (hup.onlyAt ho hi.1) (ho.moved hinv (hown.used i (by simp)))
  · rw [ends_bind, ends_frameAt hstack₁]
    refine (setChildVbn_spec (hren.ib.trans hib) hset).seq fun _ t₂ hchild => ?_
    obtain ⟨ho, hib'⟩ := hchild
    dsimp only
    rw [ends_bind, ends_setCacheDirty, ends_bind, ends_onCt]
    have ho' := ho.trans (markDirty_onlyAt (refOf up n))
    set t₃ := markDirty t₂ (refOf up n)
    have hct : t₃.ct = t₁.ct := ho'.ct
    have hiu := hown.used i (by simp)
    rw [hct]
    refine (hl.free t₁.ct i hren.inv (hren.kept i hiu.1).1).mono (fun _ c hk => ?_)
      fun e _ h => hF e _ h.1
    have hni : n ≠ i := fun h => hren.fresh (h ▸ hiu.1)
    have hkept : ∀ v ∈ m.used t.ct, v ≠ i → v ∈ m.used c ∧ t₃.caches v = t.caches v ∧
        m.stored c v = m.stored t.ct v := by
      intro v hv hvi
      obtain ⟨hu, hs, hc⟩ := hren.kept v hv
      have hvn : n ∉ [v] := by
        simp only [List.mem_singleton]
        exact fun h => hren.fresh (h ▸ hv)
      have hk' := hk.2 v ⟨hu, by simpa using hvi⟩
      refine ⟨hk'.1, ?_, hk'.2.trans hs⟩
      exact ((ho'.sameOn (m := m) hvn) v (by simp)).1.trans (hc hvi)
    refine hgo n _ hren.ne_zero hren.fresh (ho'.stack.trans hstack₁) ?_ ?_ ?_
    · exact (ibIn_markDirty _).trans hib'
    · cases up with
      | top => exact ho'.rootVbn.trans (hren.rootVbn rfl)
      | down j b a up =>
        have hroot := hren.root (by simp [Path.spine])
        refine hup.congr (fun v hv => ?_) ((ho'.rootIb CacheRef.noConfusion).trans hroot.1)
          (ho'.rootVbn.trans hroot.2)
        exact (hkept v (hown.used v (List.mem_cons_of_mem _ hv)).1 fun h => hi.1 (h ▸ hv)).2
    · refine ⟨hk.1, List.nodup_singleton n, fun v hv => ?_, fun v hv hvi => ?_,
        ho'.maxDepth.trans hren.maxDepth⟩
      · obtain rfl := List.mem_singleton.mp hv
        exact ⟨(hk.2 v ⟨hren.used, by simpa using hni⟩).1, hren.ne_zero, .inr hren.fresh⟩
      · exact hkept v hv (by simpa using hvi)

/-! ## The whole path -/

theorem Moved.refl {l : List ℕ} (hinv : m.Inv t.ct) (ho : Owned m t l) : Moved m t t l l where
  inv := hinv
  nodup := ho.nodup
  fresh v hv := ⟨(ho.used v hv).1, (ho.used v hv).2, .inl hv⟩
  kept _ hv _ := ⟨hv, rfl, rfl⟩
  maxDepth := rfl

/-- The result of `set_ib_dirty` from the block `i` below the path `up` on. -/
def Dirtied (m : ContainerModel σ) (t t' : ObjectTree σ) (pre : List Frame) (up : TPath H h)
    (i pos : ℕ) (ib : IndexBlock) : Prop :=
  ∃ j l, l.length = up.spine.length ∧
    t'.stack = pre ++ ⟨refOf up j, pos⟩ :: frames (up.relabel l) ∧
    ibIn t' (refOf up j) = some ib ∧ HoldsPath m t' (up.relabel l) j ∧
    Moved m t t' (i :: up.spine) (j :: l)

theorem setIbDirtyFrom_spec (hl : LawfulEnv env m fails) {up : TPath H h} (hh : 0 < h) {i pos w : ℕ}
    {pre : List Frame} {ib ib' : IndexBlock} (hinv : m.Inv t.ct)
    (hstack : t.stack = pre ++ ⟨refOf up i, pos⟩ :: frames up)
    (hpre : ∀ f ∈ pre, ∀ v ∈ i :: up.spine, f.cache ≠ .block v) (hib : ibIn t (refOf up i) = some ib)
    (hset : if w = 0 then ib' = ib else setIeVbn ib pos w = .ok ib')
    (hup : HoldsPath m t up i) (hown : Owned m t (i :: (up.spine ++ up.side))) :
    Ends (setIbDirtyFrom env w (up.spine.length + 1) pre.length) t
      (fun _ t' => Dirtied m t t' pre up i pos ib') (fun _ _ => fails) := by
  induction up generalizing t i pos w pre ib ib' with
  | top =>
    refine setIbDirtyFrom_level hl hinv hstack (fun f hf => hpre f hf i (by simp)) hib hset hup hown
      (fun _ _ h => h) (fun t' hst hib' hup' hm => ?_) fun n t' _ _ hst hib' hup' hm => ?_
    · exact ⟨i, [], rfl, hst.trans hstack, hib', hup', hm⟩
    · exact ⟨n, [], rfl, hst, hib', hup', hm⟩
  | @down k i' before after up ih =>
    have howns : Owned m t (i :: (Path.down i' before after up).spine) :=
      hown.sublist ((List.sublist_append_left _ _).cons_cons i)
    refine setIbDirtyFrom_level hl hinv hstack (fun f hf => hpre f hf i (by simp)) hib hset hup hown
      (fun _ _ h => h) (fun t' hst hib' hup' hm => ?_) fun n t' hn0 hn hst hib' hup' hm => ?_
    · refine ⟨i, _, rfl, ?_, hib', ?_, ?_⟩
      · rw [hst, hstack, Path.relabel_spine]
      · rw [Path.relabel_spine]
        exact hup'
      · have hown' : Owned m t' (i :: (Path.down i' before after up).spine) :=
          hm.owned_cons howns
        exact hm.trans (.refl hm.inv (hown'.sublist (List.sublist_cons_self _ _))) howns
    · have hup'' : HoldsPath m t' (.down i' before after up) i := hup'
      obtain ⟨hib₁, hbefore, hafter, hup₁⟩ := hup''
      have hown₁ : Owned m t' (i' :: up.spine ++
          (Node.labelsBefore before ++ Node.labelsAfter after ++ up.side)) :=
        (hm.owned_cons hown).sublist (List.sublist_cons_self n _)
      have hset₁ : setIeVbn (image (allocOf up) (isLarge k) (flatBefore before) i (flatAfter after))
          (cursorAt before) n = .ok (image (allocOf up) (isLarge k) (flatBefore before) n
            (flatAfter after)) := by
        obtain ⟨k, rfl⟩ : ∃ k', k = k' + 1 := ⟨k - 1, by omega⟩
        exact setIeVbn_image n
      have hpre₁ : ∀ f ∈ pre ++ [⟨refOf (Path.down i' before after up) n, pos⟩],
          ∀ v ∈ i' :: up.spine, f.cache ≠ .block v := by
        intro f hf v hv
        rcases List.mem_append.mp hf with hf | hf
        · exact hpre f hf v (List.mem_cons_of_mem _ hv)
        · obtain rfl := List.mem_singleton.mp hf
          intro heq
          injection heq with heq
          exact hn (heq ▸ (howns.used v (List.mem_cons_of_mem _ hv)).1)
      have hst₁ : t'.stack = (pre ++ [⟨refOf (Path.down i' before after up) n, pos⟩]) ++
          ⟨refOf up i', cursorAt before⟩ :: frames up := by
        rw [hst]
        simp [frames]
      have hrec := ih (by omega) (w := n) hm.inv hst₁ hpre₁ hib₁ (by rw [if_neg hn0]; exact hset₁) hup₁
        (hown₁.sublist (by
          simp only [List.cons_append]
          exact ((List.Sublist.refl _).append (List.sublist_append_right _ _)).cons_cons i'))
      rw [List.length_append] at hrec
      refine hrec.mono (fun _ t'' hd => ?_) fun _ _ h => h
      obtain ⟨j, l, hlen, hst₂, hib₂, hup₂, hm₂⟩ := hd
      have hsame := hm₂.sameOn hown₁
      refine ⟨n, j :: l, by simp [hlen, Path.spine], ?_, ?_, ⟨?_, fun x hx => ?_, fun x hx => ?_, hup₂⟩,
        hm.trans hm₂ howns⟩
      · rw [hst₂, Path.relabel_down]
        simp [frames, refOf_relabel]
      · have hnk := hm₂.kept n (hm.fresh n (by simp)).1 fun hmem =>
          hn (howns.used n (List.mem_cons_of_mem _ hmem)).1
        change ibIn t'' (.block n) = _
        change ibIn t' (.block n) = _ at hib'
        rw [ibIn_block] at hib' ⊢
        rw [hnk.2.1]
        exact hib'
      · rw [refOf_relabel, allocOf_relabel]
        exact hib₂
      · refine (hbefore x hx).congr (hsame.mono fun v hv => ?_)
        have : v ∈ Node.labelsBefore before := List.mem_flatMap.mpr ⟨x, hx, hv⟩
        simp [this]
      · refine (hafter x hx).congr (hsame.mono fun v hv => ?_)
        have : v ∈ Node.labelsAfter after := List.mem_flatMap.mpr ⟨x, hx, hv⟩
        simp [this]

/-- `set_ib_dirty`, whatever the block on top holds. -/
theorem setIbDirty_spec (hl : LawfulEnv env m fails) {up : TPath H (h + 1)} {i pos : ℕ}
    {ib : IndexBlock} (hinv : m.Inv t.ct) (hstack : t.stack = ⟨refOf up i, pos⟩ :: frames up)
    (hib : ibIn t (refOf up i) = some ib) (hup : HoldsPath m t up i)
    (hown : Owned m t (i :: (up.spine ++ up.side))) :
    Ends (setIbDirty env) t (fun _ t' => Dirtied m t t' [] up i pos ib) (fun _ _ => fails) := by
  have hstack' : t.stack = [] ++ ⟨refOf up i, pos⟩ :: frames up := hstack
  unfold setIbDirty
  rw [ends_bind, ends_get, hstack, List.length_cons, frames_length]
  exact setIbDirtyFrom_spec hl (Nat.succ_pos h) hinv hstack' (by simp) hib (by rw [if_pos rfl]) hup hown

end IndexFs.Tree
