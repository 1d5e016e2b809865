import IndexFs.Tree.Search

/-!
# Walking a tree

`Rests m t n X l kv r`: the cursor is on the entry `kv` of the tree `n`, with the
entries `l` before and `r` behind it. A walk changes only the position.

Results, for a tree of any shape that is not higher than the cursor can follow:

* `walkTree_next`, `walkTree_prev`: to the entry behind and before the cursor, or
  `-INDEX_ERR_ROOT` if there is none.
* `walkTree_first`, `walkTree_last`: to the first and to the last entry.
-/

namespace IndexFs.Tree

open IndexFs.Multiway

variable {σ : Type} {m : ContainerModel σ} {t t' : ObjectTree σ} {H h : ℕ} {X : List ℕ}

/-! ## Positions -/

/-- The cursor is on the entry `kv` of the tree `n`, between `l` and `r`. -/
def Rests (m : ContainerModel σ) (t : ObjectTree σ) (n : TNode H) (X : List ℕ) (l : List KeyValue)
    (kv : KeyValue) (r : List KeyValue) : Prop :=
  ∃ (h i : ℕ) (B : List (TNode h × KeyValue)) (b b' : TNode h) (A : List (KeyValue × TNode h))
    (q : TPath H (h + 1)), Rep m t (.down i B ((kv, b') :: A) q) b X ∧
    (Path.down i B ((kv, b') :: A) q).fill b = n ∧
    l = (Path.down i B ((kv, b') :: A) q).left ++ b.elems ∧
    kv :: r = (Path.down i B ((kv, b') :: A) q).right

/-- The cursor is on the END entry of the root. -/
def AtRootEnd (m : ContainerModel σ) (t : ObjectTree σ) (n : TNode (H + 1)) (X : List ℕ) : Prop :=
  ∃ (i : ℕ) (B : List (TNode H × KeyValue)) (b : TNode H),
    Rep m t (.down i B [] (.top : TPath (H + 1) (H + 1))) b X ∧
      (Path.down i B [] (.top : TPath (H + 1) (H + 1))).fill b = n

/-- The cursor is on the BEGIN entry of a block. -/
def AtBegin (m : ContainerModel σ) (t : ObjectTree σ) (i : ℕ) (after : List (KeyValue × TNode h))
    (up : TPath H (h + 1)) (c : TNode h) (X : List ℕ) : Prop :=
  ∃ s, Rep m s (.down i [] after up) c X ∧
    t = { s with stack := ⟨refOf up i, beginEntryOff⟩ :: frames up }

/-- The entries around the cursor are those of the tree. -/
theorem Rests.elems {n : TNode H} {l r : List KeyValue} {kv : KeyValue}
    (hc : Rests m t n X l kv r) : n.elems = l ++ kv :: r := by
  obtain ⟨h, i, B, b, b', A, q, -, hfill, hl, hr⟩ := hc
  rw [← hfill, Path.elems_fill, hl, hr]

theorem Rests.holdsTree {n : TNode (H + 1)} {l r : List KeyValue} {kv : KeyValue}
    (hc : Rests m t n X l kv r) : HoldsTree m t n := by
  obtain ⟨h, i, B, b, b', A, q, hr, hfill, -, -⟩ := hc
  have hlen := q.spine_length
  rw [← hfill]
  exact hr.holdsTree (by omega)

theorem AtRootEnd.holdsTree {n : TNode (H + 1)} (hc : AtRootEnd m t n X) : HoldsTree m t n := by
  obtain ⟨i, B, b, hr, hfill⟩ := hc
  rw [← hfill]
  exact hr.holdsTree (by omega)

theorem HoldsTree.cursorOnly {n : TNode (H + 1)} (ht : HoldsTree m t n) (hco : CursorOnly t t') :
    HoldsTree m t' n where
  inv := hco.ct ▸ ht.inv
  root := hco.rootIb.trans ht.root
  rootVbn := hco.rootVbn.trans ht.rootVbn
  first := ht.first.congr (hco.sameOn _)
  rest x hx := (ht.rest x hx).congr (hco.sameOn _)
  owned := ht.owned.congr fun v hv => hco.ct ▸ (ht.owned.used v hv).1

theorem AtBegin.holdsTree {i : ℕ} {after : List (KeyValue × TNode h)} {up : TPath (H + 1) (h + 1)}
    {c : TNode h} (hb : AtBegin m t i after up c X) :
    HoldsTree m t ((Path.down i [] after up).fill c) := by
  obtain ⟨s, hr, rfl⟩ := hb
  have hlen := up.spine_length
  exact (hr.holdsTree (by omega)).cursorOnly (setStack_cursorOnly _)

/-- The entry under the cursor has the key and the value. -/
theorem Rests.currentIe {n : TNode H} {l r : List KeyValue} {kv : KeyValue} (hc : Rests m t n X l kv r)
    {Q : IndexEntry → ObjectTree σ → Prop} {F : ErrorCode → ObjectTree σ → Prop}
    (hQ : ∀ ie : IndexEntry, ie.key = kv.1 → ie.value = kv.2 → ie.isEnd = false → Q ie t) :
    Ends (currentIe : TreeM σ IndexEntry) t Q F := by
  obtain ⟨h, i, B, b, b', A, q, hr, -, -, -⟩ := hc
  exact (ends_currentIe hr).mpr (hQ _ rfl rfl (by simp))

/-! ## BEGIN entries -/

section Begin

variable {i : ℕ} {after : List (KeyValue × TNode h)} {up : TPath H (h + 1)} {c : TNode h}
  {F : ErrorCode → ObjectTree σ → Prop}

theorem AtBegin.topIb (hb : AtBegin m t i after up c X) : ∃ ib, ibIn t (refOf up i) = some ib ∧
    ib.beginEntry = beginIe := by
  obtain ⟨s, hr, rfl⟩ := hb
  exact ⟨_, ((setStack_cursorOnly _).ibIn _).trans hr.topIb, rfl⟩

theorem AtBegin.currentIe (hb : AtBegin m t i after up c X) {Q : IndexEntry → ObjectTree σ → Prop} :
    Ends (currentIe : TreeM σ IndexEntry) t Q F ↔ Q beginIe t := by
  obtain ⟨ib, hib, hbegin⟩ := hb.topIb
  have hstack : t.stack = ⟨refOf up i, beginEntryOff⟩ :: frames up := by
    obtain ⟨s, -, rfl⟩ := hb
    rfl
  unfold Tree.currentIe
  rw [ends_bind, ends_top hstack, ends_bind, ends_getIb hib]
  unfold getIe
  rw [if_pos rfl, hbegin]
  rfl

/-- `get_prev_ie` on the first entry of a block ends on the BEGIN entry. -/
theorem getPrevIe_first (hr : Rep m t (.down i [] after up) c X) :
    Ends (getPrevIe : TreeM σ PrevResult) t
      (fun res t' => res = .gettoBegin ∧ AtBegin m t' i after up c X ∧ t'.maxDepth = t.maxDepth) F := by
  have hbegin : AtBegin m { t with stack := ⟨refOf up i, beginEntryOff⟩ :: frames up } i after up c X :=
    ⟨t, hr, rfl⟩
  unfold getPrevIe
  rw [ends_bind, ends_top hr.stack, ends_bind, ends_currentIe hr, curIe_prevLen]
  have hlen : lastLen (isLarge h) entrySize (flatBefore ([] : List (TNode h × KeyValue))) = entrySize := rfl
  have hpos : cursorAt ([] : List (TNode h × KeyValue)) = beginEntryOff + entrySize := rfl
  dsimp only
  rw [hlen, hpos, if_neg (lt_irrefl _), ends_bind]
  unfold setPosition
  rw [ends_modify, hr.stack]
  dsimp only [frames]
  rw [Nat.add_sub_cancel, ends_bind, hbegin.currentIe]
  exact ⟨rfl, hbegin, rfl⟩

/-- On the BEGIN entry it stays there. -/
theorem getPrevIe_begin (hb : AtBegin m t i after up c X) :
    Ends (getPrevIe : TreeM σ PrevResult) t
      (fun res t' => res = .gettoBegin ∧ AtBegin m t' i after up c X ∧ t'.maxDepth = t.maxDepth) F := by
  have hstack : t.stack = ⟨refOf up i, beginEntryOff⟩ :: frames up := by
    obtain ⟨s, -, rfl⟩ := hb
    rfl
  have hsame : { t with stack := ⟨refOf up i, beginEntryOff⟩ :: frames up } = t := by
    rw [← hstack]
  unfold getPrevIe
  rw [ends_bind, ends_top hstack, ends_bind, hb.currentIe]
  have hlen : beginIe.prevLen = 0 := rfl
  rw [hlen]
  dsimp only
  rw [Nat.add_zero, if_neg (lt_irrefl _), ends_bind]
  unfold setPosition
  rw [ends_modify, hstack]
  dsimp only
  rw [Nat.sub_zero, hsame, ends_bind, hb.currentIe]
  exact ⟨rfl, hb, rfl⟩

end Begin

/-- `pop_cache_stack` in the root. -/
theorem popCacheStack_root {flags : WalkFlags} (hstack : t.stack.length = 1)
    {Q : PrevResult → ObjectTree σ → Prop} {F : ErrorCode → ObjectTree σ → Prop} (hF : F .root t) :
    Ends (popCacheStack flags : TreeM σ PrevResult) t Q F := by
  unfold popCacheStack
  rw [ends_bind, ends_get, if_pos (by unfold depth; omega), ends_throw]
  exact hF

/-! ## The second loop of `get_current_ie` -/

section Ascend

variable {env : TreeEnv σ} {flags : WalkFlags} {n : TNode (H + 1)}

/-- The position behind the entry before the cursor. -/
theorem Rests.of_prev {i : ℕ} {B : List (TNode h × KeyValue)} {c c' : TNode h} {kv : KeyValue}
    {after : List (KeyValue × TNode h)} {up : TPath (H + 1) (h + 1)}
    (hr : Rep m t (.down i B ((kv, c) :: after) up) c' X)
    (hfill : (Path.down i (B ++ [(c', kv)]) after up).fill c = n) :
    ∃ l, (Path.down i (B ++ [(c', kv)]) after up).left = l ++ [kv] ∧
      Rests m t n X l kv (c.elems ++ (Path.down i (B ++ [(c', kv)]) after up).right) := by
  refine ⟨(Path.down i B ((kv, c) :: after) up).left ++ c'.elems, ?_, h, i, B, c', c, after, up, hr, ?_,
    rfl, ?_⟩
  · simp [Path.left]
  · rw [← hfill]
    exact (fill_recut (chain_concat B c' kv c after)).symm
  · simp [Path.right]

/-- Without a flag that looks backwards the loop climbs off END entries. -/
theorem ascend_next (hlast : flags.getLast = false) (hprev : flags.getPrev = false)
    (hremove : flags.removeBlock = false) {i : ℕ} {before : List (TNode h × KeyValue)} {c : TNode h}
    {after : List (KeyValue × TNode h)} {up : TPath (H + 1) (h + 1)}
    (hr : Rep m t (.down i before after up) c X) (hfill : (Path.down i before after up).fill c = n)
    {fuel : ℕ} (hfuel : up.spine.length < fuel) :
    Ends (ascend env flags fuel) t
      (fun _ t' => ∃ kv r, (Path.down i before after up).right = kv :: r ∧
        Rests m t' n X ((Path.down i before after up).left ++ c.elems) kv r)
      (fun e t' => e = .root ∧ (Path.down i before after up).right = [] ∧ AtRootEnd m t' n X) := by
  induction fuel generalizing t h i before c after up with
  | zero => omega
  | succ fuel ih =>
    unfold ascend
    rw [ends_bind, ends_currentIe hr, curIe_isEnd, curIe_isBegin]
    cases after with
    | cons x A =>
      obtain ⟨kv, b'⟩ := x
      rw [if_neg (by simp), ends_pure]
      exact ⟨kv, b'.elems ++ Node.elemsAfter A ++ up.right, by simp [Path.right], h, i, before, c, b',
        A, up, hr, hfill, rfl, by simp [Path.right]⟩
    | nil =>
      rw [if_pos (by simp)]
      unfold addOrRemoveIb
      rw [if_neg (by simp [hremove]), ends_bind, ends_pure, if_neg (by simp [hlast, hprev])]
      cases up with
      | top =>
        have hstack := hr.stack
        exact Ends.bind (popCacheStack_root (by rw [hstack]; rfl)
          ⟨rfl, by simp [Path.right], i, before, c, hr, hfill⟩)
      | down j b a up =>
        rw [ends_bind]
        refine popCacheStack_spec hprev hr fun t₁ hr₁ _ _ => ?_
        refine (ih hr₁ hfill ?_).mono (fun _ t' hpost => ?_) fun e t' hpost => ?_
        · simp only [Path.spine, List.length_cons] at hfuel
          omega
        · obtain ⟨kv, r, hright, hrests⟩ := hpost
          refine ⟨kv, r, by simpa [Path.right] using hright, ?_⟩
          have hleft : (Path.down j b a up).left ++ (Node.plug i before c []).elems =
              (Path.down i before [] (.down j b a up)).left ++ c.elems := by
            simp [Path.left, Node.elems_plug]
          rwa [hleft] at hrests
        · obtain ⟨he, hright, hend⟩ := hpost
          exact ⟨he, by simpa [Path.right] using hright, hend⟩

/-- The loop stops on an entry that is neither END nor BEGIN. -/
theorem ascend_entry {l r : List KeyValue} {kv : KeyValue} (hc : Rests m t n X l kv r) {fuel : ℕ}
    (hfuel : 0 < fuel) {Q : Unit → ObjectTree σ → Prop} {F : ErrorCode → ObjectTree σ → Prop}
    (hQ : Q () t) : Ends (ascend env flags fuel) t Q F := by
  obtain ⟨fuel, rfl⟩ : ∃ f, fuel = f + 1 := ⟨fuel - 1, by omega⟩
  obtain ⟨h, i, B, b, b', A, q, hr, -, -, -⟩ := hc
  unfold ascend
  rw [ends_bind, ends_currentIe hr, if_neg (by simp), ends_pure]
  exact hQ

/-- From a BEGIN entry `INDEX_GET_PREV` climbs to the entry before the block. -/
theorem pop_ascend_prev (hprev : flags.getPrev = true) (hentry : flags.getLastEntry = false)
    (hremove : flags.removeBlock = false) {i : ℕ} {c : TNode h} {after : List (KeyValue × TNode h)}
    {up : TPath (H + 1) (h + 1)} (hb : AtBegin m t i after up c X)
    (hfill : (Path.down i [] after up).fill c = n) {fuel : ℕ} (hfuel : up.spine.length ≤ fuel) :
    Ends (do let _ ← popCacheStack flags; ascend env flags fuel) t
      (fun _ t' => ∃ l kv, up.left = l ++ [kv] ∧
        Rests m t' n X l kv (c.elems ++ (Path.down i [] after up).right))
      (fun e t' => e = .root ∧ up.left = [] ∧ HoldsTree m t' n) := by
  induction fuel generalizing t h i c after up with
  | zero =>
    cases up with
    | top =>
      refine Ends.bind (popCacheStack_root ?_ ⟨rfl, rfl, hfill ▸ hb.holdsTree⟩)
      obtain ⟨s, -, rfl⟩ := hb
      rfl
    | down j b a up => simp [Path.spine] at hfuel
  | succ fuel ih =>
    cases up with
    | top =>
      refine Ends.bind (popCacheStack_root ?_ ⟨rfl, rfl, hfill ▸ hb.holdsTree⟩)
      obtain ⟨s, -, rfl⟩ := hb
      rfl
    | @down h j before' after' up =>
      obtain ⟨s, hr, rfl⟩ := hb
      have hr₁ : Rep m { s with stack := frames (.down j before' after' up) }
          (.down j before' after' up) (Node.plug i [] c after) X :=
        hr.pop (setStack_cursorOnly _) rfl
      have hright : (Node.plug i [] c after).elems ++ (Path.down j before' after' up).right =
          c.elems ++ (Path.down i [] after (.down j before' after' up)).right := by
        simp [Path.right, Node.elems_block]
      unfold popCacheStack
      rw [ends_bind, ends_bind, ends_get, if_neg (by simp [depth, frames]), ends_bind, ends_set,
        if_pos hprev]
      cases before' using List.reverseRecOn with
      | nil =>
        -- the parent is left on its BEGIN entry
        refine (getPrevIe_first hr₁).mono (fun res t₁ hpost => ?_) fun _ _ h => h
        obtain ⟨-, hb₁, -⟩ := hpost
        unfold ascend
        rw [ends_bind, hb₁.currentIe, if_pos (by simp [beginIe])]
        unfold addOrRemoveIb
        rw [if_neg (by simp [hremove]), ends_bind, ends_pure, if_pos (.inr hprev),
          if_neg (by simp [hentry])]
        refine (getPrevIe_begin hb₁).seq fun res t₂ hpost => ?_
        obtain ⟨rfl, hb₂, -⟩ := hpost
        simp only [Path.spine, List.length_cons] at hfuel
        refine (ih hb₂ hfill (by omega)).mono (fun _ t' hpost => ?_) fun e t' hpost => ?_
        · obtain ⟨l, kv, hl, hrests⟩ := hpost
          exact ⟨l, kv, by simpa [Path.left] using hl, by rwa [← hright]⟩
        · exact ⟨hpost.1, by simpa [Path.left] using hpost.2.1, hpost.2.2⟩
      | append_singleton B x =>
        obtain ⟨c', kv⟩ := x
        refine (getPrevIe_spec hr₁).mono (fun res t₁ hpost => ?_) fun _ _ h => h
        obtain ⟨-, hr₂, -⟩ := hpost
        obtain ⟨l, hl, hrests⟩ := Rests.of_prev hr₂ hfill
        rw [hright] at hrests
        exact ascend_entry hrests (Nat.succ_pos fuel) ⟨l, kv, hl, hrests⟩

/-- From the END entry of a leaf on, `INDEX_GET_PREV` goes to the entry before. -/
theorem ascend_prev (hprev : flags.getPrev = true) (hentry : flags.getLastEntry = false)
    (hremove : flags.removeBlock = false) {i : ℕ} {before : List (TNode h × KeyValue)} {c : TNode h}
    {up : TPath (H + 1) (h + 1)} (hr : Rep m t (.down i before [] up) c X)
    (hfill : (Path.down i before [] up).fill c = n) (hc : c.elems = []) {fuel : ℕ}
    (hfuel : up.spine.length < fuel) :
    Ends (ascend env flags fuel) t
      (fun _ t' => ∃ l kv, (Path.down i before [] up).left = l ++ [kv] ∧ Rests m t' n X l kv up.right)
      (fun e t' => e = .root ∧ (Path.down i before [] up).left = [] ∧ HoldsTree m t' n) := by
  obtain ⟨fuel, rfl⟩ : ∃ f, fuel = f + 1 := ⟨fuel - 1, by omega⟩
  unfold ascend
  rw [ends_bind, ends_currentIe hr, if_pos (by simp)]
  unfold addOrRemoveIb
  rw [if_neg (by simp [hremove]), ends_bind, ends_pure, if_pos (.inr hprev), if_neg (by simp [hentry])]
  cases before using List.reverseRecOn with
  | nil =>
    refine (getPrevIe_first hr).seq fun res t₁ hpost => ?_
    obtain ⟨rfl, hb, -⟩ := hpost
    refine (pop_ascend_prev hprev hentry hremove hb hfill (by omega)).mono (fun _ t' hpost => ?_)
      fun e t' hpost => ?_
    · obtain ⟨l, kv, hl, hrests⟩ := hpost
      exact ⟨l, kv, by simpa [Path.left] using hl, by simpa [hc, Path.right] using hrests⟩
    · exact ⟨hpost.1, by simpa [Path.left] using hpost.2.1, hpost.2.2⟩
  | append_singleton B x =>
    obtain ⟨c', kv⟩ := x
    refine (getPrevIe_spec hr).seq fun res t₁ hpost => ?_
    obtain ⟨rfl, hr₁, -⟩ := hpost
    obtain ⟨l, hl, hrests⟩ := Rests.of_prev hr₁ hfill
    rw [ends_pure]
    exact ⟨l, kv, hl, by simpa [hc, Path.right] using hrests⟩

/-- On the right edge `INDEX_GET_LAST` climbs off empty blocks. -/
theorem ascend_last (hlast : flags.getLast = true) (hprev : flags.getPrev = false)
    (hentry : flags.getLastEntry = false) (hremove : flags.removeBlock = false) {i : ℕ}
    {before : List (TNode h × KeyValue)} {c : TNode h} {up : TPath (H + 1) (h + 1)}
    (hr : Rep m t (.down i before [] up) c X) (hfill : (Path.down i before [] up).fill c = n)
    (hc : c.elems = []) (hright : up.right = []) {fuel : ℕ} (hfuel : up.spine.length < fuel) :
    Ends (ascend env flags fuel) t
      (fun _ t' => ∃ l kv, (Path.down i before [] up).left = l ++ [kv] ∧ Rests m t' n X l kv [])
      (fun e t' => e = .root ∧ (Path.down i before [] up).left = [] ∧ HoldsTree m t' n) := by
  induction fuel generalizing t h i before c up with
  | zero => omega
  | succ fuel ih =>
    unfold ascend
    rw [ends_bind, ends_currentIe hr, if_pos (by simp)]
    unfold addOrRemoveIb
    rw [if_neg (by simp [hremove]), ends_bind, ends_pure, if_pos (.inl hlast),
      if_neg (by simp [hentry])]
    cases before using List.reverseRecOn with
    | nil =>
      refine (getPrevIe_first hr).seq fun res t₁ hpost => ?_
      obtain ⟨rfl, hb, -⟩ := hpost
      cases up with
      | top =>
        refine Ends.bind (popCacheStack_root ?_ ⟨rfl, rfl, hfill ▸ hb.holdsTree⟩)
        obtain ⟨s, -, rfl⟩ := hb
        rfl
      | down j b a up =>
        obtain ⟨s, hr', rfl⟩ := hb
        simp only [Path.right, List.append_eq_nil_iff] at hright
        have ha : a = [] := by
          cases a with
          | nil => rfl
          | cons x a => simp at hright
        subst ha
        have hr₁ : Rep m { s with stack := frames (.down j b [] up) } (.down j b [] up)
            (Node.plug i [] c []) X := hr'.pop (setStack_cursorOnly _) rfl
        unfold popCacheStack
        rw [ends_bind, ends_bind, ends_get, if_neg (by simp [depth, frames]), ends_bind, ends_set,
          if_neg (by simp [hprev]), ends_pure]
        simp only [Path.spine, List.length_cons] at hfuel
        refine (ih hr₁ hfill (by simp [Node.elems_block, hc]) hright.2 (by omega)).mono
          (fun _ t' hpost => ?_) fun e t' hpost => ?_
        · obtain ⟨l, kv, hl, hrests⟩ := hpost
          exact ⟨l, kv, by simpa [Path.left] using hl, hrests⟩
        · exact ⟨hpost.1, by simpa [Path.left] using hpost.2.1, hpost.2.2⟩
    | append_singleton B x =>
      obtain ⟨c', kv⟩ := x
      refine (getPrevIe_spec hr).seq fun res t₁ hpost => ?_
      obtain ⟨rfl, hr₁, -⟩ := hpost
      obtain ⟨l, hl, hrests⟩ := Rests.of_prev hr₁ hfill
      rw [ends_pure]
      exact ⟨l, kv, hl, by simpa [hc, Path.right, hright] using hrests⟩

end Ascend

/-! ## `walk_tree` -/

section Walk

variable {env : TreeEnv σ} {fails : Prop} {n : TNode (H + 1)}

/-- `get_current_ie` without a flag that looks backwards: to the first entry behind the cursor. -/
theorem getCurrentIe_next (hl : LawfulEnv env m fails) (hH : H + 1 ≤ treeMaxDepth) {flags : WalkFlags}
    (hlast : flags.getLast = false) (hprev : flags.getPrev = false) (hremove : flags.removeBlock = false)
    {i : ℕ} {before : List (TNode h × KeyValue)} {c : TNode h} {after : List (KeyValue × TNode h)}
    {up : TPath (H + 1) (h + 1)} (hr : Rep m t (.down i before after up) c X)
    (hfill : (Path.down i before after up).fill c = n) :
    Ends (getCurrentIe env flags) t
      (fun _ t' => ∃ kv r, c.elems ++ (Path.down i before after up).right = kv :: r ∧
        Rests m t' n X (Path.down i before after up).left kv r)
      (fun e t' => e = .root ∧ c.elems ++ (Path.down i before after up).right = [] ∧
        AtRootEnd m t' n X) := by
  have hlen := up.spine_length
  unfold getCurrentIe
  refine (descend_spec hl hH hr (by omega)).seq' (fun _ t₁ hpost => ?_) fun _ _ h => h.elim
  obtain ⟨j, B, A, q, hr₁, hbelow, hside, -⟩ := hpost
  rw [if_neg (by simp [hlast, hprev])] at hside
  have hfill₁ : (Path.down j B A q).fill Node.nil = n := hbelow.fill_eq.trans hfill
  -- the left edge is the same, so the right one is too
  have hright : (Path.down j B A q).right = c.elems ++ (Path.down i before after up).right := by
    have helems := congrArg Node.elems (hfill₁.trans hfill.symm)
    rw [Path.elems_fill, Path.elems_fill, hside.1, Node.elems_zero, List.append_nil,
      List.append_assoc] at helems
    exact List.append_cancel_left helems
  have hlen' := q.spine_length
  refine (ascend_next hlast hprev hremove hr₁ hfill₁ (by omega)).mono (fun _ t' hpost => ?_)
    fun e t' hpost => ?_
  · obtain ⟨kv, r, hkv, hrests⟩ := hpost
    rw [hside.1, Node.elems_zero, List.append_nil] at hrests
    exact ⟨kv, r, hright ▸ hkv, hrests⟩
  · exact ⟨hpost.1, hright ▸ hpost.2.1, hpost.2.2⟩

/-- `walk_tree` with no flag goes to the entry behind the cursor. -/
theorem walkTree_next (hl : LawfulEnv env m fails) (hH : H + 1 ≤ treeMaxDepth) {l r : List KeyValue}
    {kv : KeyValue} (hc : Rests m t n X l kv r) :
    Ends (walkTree env {}) t
      (fun _ t' => ∃ kv' r', r = kv' :: r' ∧ Rests m t' n X (l ++ [kv]) kv' r')
      (fun e t' => e = .root ∧ r = [] ∧ AtRootEnd m t' n X) := by
  obtain ⟨h, i, B, b, b', A, q, hr, hfill, hl', hr'⟩ := hc
  unfold walkTree
  rw [if_neg (by simp), if_neg (by simp), if_pos (by simp)]
  refine (getNextIe_spec hr).seq fun _ t₁ hpost => ?_
  obtain ⟨hr₁, -, -⟩ := hpost
  have hfill₁ : (Path.down i (B ++ [(b, kv)]) A q).fill b' = n := by
    rw [← hfill]
    exact fill_recut (chain_concat B b kv b' A)
  have hleft : (Path.down i (B ++ [(b, kv)]) A q).left = l ++ [kv] := by
    rw [hl']
    simp [Path.left]
  have hright : b'.elems ++ (Path.down i (B ++ [(b, kv)]) A q).right = r := by
    simp only [Path.right, Node.elemsAfter_cons, List.cons_append, List.cons.injEq,
      List.append_assoc] at hr' ⊢
    exact hr'.2.symm
  refine (getCurrentIe_next hl hH rfl rfl rfl hr₁ hfill₁).mono (fun _ t' hpost => ?_)
    fun e t' hpost => ?_
  · obtain ⟨kv', r', hkv, hrests⟩ := hpost
    rw [hleft] at hrests
    exact ⟨kv', r', hright ▸ hkv, hrests⟩
  · exact ⟨hpost.1, hright ▸ hpost.2.1, hpost.2.2⟩

/-- `INDEX_GET_PREV` from any entry: to the one before. -/
theorem walkTree_prev_at (hl : LawfulEnv env m fails) (hH : H + 1 ≤ treeMaxDepth) {i : ℕ}
    {before : List (TNode h × KeyValue)} {c : TNode h} {after : List (KeyValue × TNode h)}
    {up : TPath (H + 1) (h + 1)} (hr : Rep m t (.down i before after up) c X)
    (hfill : (Path.down i before after up).fill c = n) :
    Ends (walkTree env { getPrev := true }) t
      (fun _ t' => ∃ l kv, (Path.down i before after up).left ++ c.elems = l ++ [kv] ∧
        Rests m t' n X l kv (Path.down i before after up).right)
      (fun e t' => e = .root ∧ (Path.down i before after up).left ++ c.elems = [] ∧
        HoldsTree m t' n) := by
  have hlen := up.spine_length
  unfold walkTree
  rw [if_neg (by simp), if_pos rfl, ends_bind, ends_currentIe hr, curIe_isNode]
  cases h with
  | zero =>
    have hc : c.elems = [] := rfl
    rw [if_pos (by simp [isLarge])]
    cases before using List.reverseRecOn with
    | nil =>
      refine (getPrevIe_first hr).seq fun _ t₁ hpost => ?_
      obtain ⟨-, hb, -⟩ := hpost
      unfold getCurrentIe descend
      rw [ends_bind, ends_bind, hb.currentIe, if_neg (by simp [beginIe]), ends_pure]
      unfold ascend
      rw [ends_bind, hb.currentIe, if_pos (by simp [beginIe])]
      unfold addOrRemoveIb
      rw [if_neg (by simp), ends_bind, ends_pure, if_pos (by simp), if_neg (by simp)]
      refine (getPrevIe_begin hb).seq fun _ t₂ hpost => ?_
      obtain ⟨rfl, hb₂, -⟩ := hpost
      refine (pop_ascend_prev rfl rfl rfl hb₂ hfill (by omega)).mono (fun _ t' hpost => ?_)
        fun e t' hpost => ?_
      · obtain ⟨l, kv, hl', hrests⟩ := hpost
        exact ⟨l, kv, by simpa [Path.left, hc] using hl', by simpa [hc] using hrests⟩
      · exact ⟨hpost.1, by simpa [Path.left, hc] using hpost.2.1, hpost.2.2⟩
    | append_singleton B x =>
      obtain ⟨c', kv⟩ := x
      refine (getPrevIe_spec hr).seq fun _ t₁ hpost => ?_
      obtain ⟨-, hr₁, -⟩ := hpost
      obtain ⟨l, hl', hrests⟩ := Rests.of_prev hr₁ hfill
      unfold getCurrentIe descend
      rw [ends_bind, ends_bind, ends_currentIe hr₁, if_neg (by simp [isLarge]), ends_pure]
      exact ascend_entry hrests (by decide) ⟨l, kv, by simpa [hc] using hl', by simpa [hc] using hrests⟩
  | succ h =>
    rw [if_neg (by simp [isLarge])]
    unfold getCurrentIe
    refine (descend_spec hl hH hr (by omega)).seq' (fun _ t₁ hpost => ?_) fun _ _ h => h.elim
    obtain ⟨j, B, A, q, hr₁, hbelow, hside, -⟩ := hpost
    rw [if_pos (by simp)] at hside
    obtain rfl : A = [] := hside.2 (.inl (Nat.succ_ne_zero h))
    have hfill₁ : (Path.down j B [] q).fill Node.nil = n := hbelow.fill_eq.trans hfill
    have hleft : (Path.down j B [] q).left = (Path.down i before after up).left ++ c.elems := by
      have helems := congrArg Node.elems (hfill₁.trans hfill.symm)
      rw [Path.elems_fill, Path.elems_fill, hside.1, Node.elems_zero, List.append_nil] at helems
      exact List.append_cancel_right helems
    have hright : q.right = (Path.down i before after up).right := by
      rw [← hside.1]
      simp [Path.right]
    have hlen' := q.spine_length
    refine (ascend_prev rfl rfl rfl hr₁ hfill₁ rfl (by omega)).mono (fun _ t' hpost => ?_)
      fun e t' hpost => ?_
    · obtain ⟨l, kv, hl', hrests⟩ := hpost
      rw [hright] at hrests
      exact ⟨l, kv, hleft ▸ hl', hrests⟩
    · exact ⟨hpost.1, hleft ▸ hpost.2.1, hpost.2.2⟩

/-- `INDEX_GET_PREV` goes to the entry before the cursor. -/
theorem walkTree_prev (hl : LawfulEnv env m fails) (hH : H + 1 ≤ treeMaxDepth) {l r : List KeyValue}
    {kv : KeyValue} (hc : Rests m t n X l kv r) :
    Ends (walkTree env { getPrev := true }) t
      (fun _ t' => ∃ l' kv', l = l' ++ [kv'] ∧ Rests m t' n X l' kv' (kv :: r))
      (fun e t' => e = .root ∧ l = [] ∧ HoldsTree m t' n) := by
  obtain ⟨h, i, B, b, b', A, q, hr, hfill, hl', hr'⟩ := hc
  rw [hl', hr']
  exact walkTree_prev_at hl hH hr hfill

/-- From the END entry of the root it goes to the last entry. -/
theorem walkTree_prev_rootEnd (hl : LawfulEnv env m fails) (hH : H + 1 ≤ treeMaxDepth)
    (hc : AtRootEnd m t n X) :
    Ends (walkTree env { getPrev := true }) t
      (fun _ t' => ∃ l kv, n.elems = l ++ [kv] ∧ Rests m t' n X l kv [])
      (fun e t' => e = .root ∧ n.elems = [] ∧ HoldsTree m t' n) := by
  obtain ⟨i, B, b, hr, hfill⟩ := hc
  have helems : n.elems = (Path.down i B [] (.top : TPath (H + 1) (H + 1))).left ++ b.elems := by
    rw [← hfill, Path.elems_fill]
    simp [Path.right]
  rw [helems]
  exact walkTree_prev_at hl hH hr hfill

/-- `INDEX_GET_FIRST` goes to the first entry. -/
theorem walkTree_first (hl : LawfulEnv env m fails) (hH : H + 1 ≤ treeMaxDepth) (ht : HoldsTree m t n) :
    Ends (walkTree env { getFirst := true }) t
      (fun _ t' => ∃ kv r, n.elems = kv :: r ∧ Rests m t' n [] [] kv r)
      (fun e t' => e = .root ∧ n.elems = [] ∧ AtRootEnd m t' n []) := by
  obtain ⟨i, c, rest, rfl⟩ := n.exists_block
  have helems : (Node.block i c rest).elems =
      c.elems ++ (Path.down i [] rest (.top : TPath (H + 1) (H + 1))).right := by
    simp [Path.right, Node.elems_block]
  unfold walkTree
  rw [if_pos (by simp)]
  refine Ends.bind (resetCacheStack_spec rfl ht fun t₁ hr _ => ?_)
  rw [helems]
  exact getCurrentIe_next hl hH rfl rfl rfl hr rfl

/-- `reset_cache_stack` with `INDEX_GET_LAST` puts the cursor on the END entry of the root. -/
theorem HoldsTree.resetLast (ht : HoldsTree m t n) {Q : Unit → ObjectTree σ → Prop}
    {F : ErrorCode → ObjectTree σ → Prop} (hQ : ∀ t', AtRootEnd m t' n [] → Q () t') :
    Ends (resetCacheStack { getLast := true } : TreeM σ Unit) t Q F := by
  obtain ⟨i, c, rest, rfl⟩ := n.exists_block
  obtain ⟨B, e, hchain⟩ := exists_chain_last c rest
  have hfill : (Path.down i B [] (.top : TPath (H + 1) (H + 1))).fill e = Node.block i c rest := by
    simp only [Path.fill, Node.plug, hchain]
  have hroot : t.rootIb = image attrRecordContentSize (isLarge H) (flatBefore B) (num e) [] := by
    have himage : _ = image attrRecordContentSize _ _ _ _ := blockImage_chain (i := i) B e []
    rw [hchain] at himage
    exact ht.root.trans himage
  have hr : Rep m { t with stack := frames (.down i [] rest (.top : TPath (H + 1) (H + 1))) }
      (.down i [] rest (.top : TPath (H + 1) (H + 1))) c [] := ht.reset (setStack_cursorOnly _) rfl
  have hpos : lastPosition t.rootIb = cursorAt B := by
    rw [hroot]
    exact lastPosition_image
  unfold resetCacheStack
  rw [ends_modify, if_pos rfl, hpos]
  exact hQ _ ⟨i, B, e, hr.recut hchain.symm ⟨rfl, rfl, rfl, rfl⟩ rfl, hfill⟩

/-- `get_current_ie` with `INDEX_GET_LAST` goes from the END entry of the root to the last entry. -/
theorem getCurrentIe_last (hl : LawfulEnv env m fails) (hH : H + 1 ≤ treeMaxDepth) {i : ℕ}
    {B : List (TNode H × KeyValue)} {b : TNode H}
    (hr : Rep m t (.down i B [] (.top : TPath (H + 1) (H + 1))) b X)
    (hfill : (Path.down i B [] (.top : TPath (H + 1) (H + 1))).fill b = n) :
    Ends (getCurrentIe env { getLast := true }) t
      (fun _ t' => ∃ l kv, n.elems = l ++ [kv] ∧ Rests m t' n X l kv [])
      (fun e t' => e = .root ∧ n.elems = [] ∧ HoldsTree m t' n) := by
  unfold getCurrentIe
  refine (descend_spec hl hH hr (by omega)).seq' (fun _ t₂ hpost => ?_) fun _ _ h => h.elim
  obtain ⟨j, B', A, q, hr₁, hbelow, hside, -⟩ := hpost
  rw [if_pos (by simp)] at hside
  obtain rfl : A = [] := hside.2 (.inr rfl)
  have hfill₁ : (Path.down j B' [] q).fill Node.nil = n := hbelow.fill_eq.trans hfill
  have hright : q.right = [] := by
    have hempty := hside.1
    simpa [Path.right] using hempty
  have helems : n.elems = (Path.down j B' [] q).left := by
    rw [← hfill₁, Path.elems_fill]
    simp [Path.right, hright]
  have hlen' := q.spine_length
  rw [helems]
  exact ascend_last rfl rfl rfl rfl hr₁ hfill₁ rfl hright (by omega)

/-- `INDEX_GET_LAST` goes to the last entry. -/
theorem walkTree_last (hl : LawfulEnv env m fails) (hH : H + 1 ≤ treeMaxDepth) (ht : HoldsTree m t n) :
    Ends (walkTree env { getLast := true }) t
      (fun _ t' => ∃ l kv, n.elems = l ++ [kv] ∧ Rests m t' n [] l kv [])
      (fun e t' => e = .root ∧ n.elems = [] ∧ HoldsTree m t' n) := by
  unfold walkTree
  rw [if_pos (by simp)]
  refine Ends.bind (ht.resetLast fun t₁ hend => ?_)
  obtain ⟨i, B, b, hr, hfill⟩ := hend
  exact getCurrentIe_last hl hH hr hfill

end Walk

end IndexFs.Tree
