import IndexFs.Lib.Trail
import IndexFs.Tree.Contents
import IndexFs.Tree.Walk

/-!
# Walking a tree some of whose blocks cannot be read

`damaged env lost` is the container `env` in which `index_block_read2` fails for the
blocks `lost`, with a code for each: an I/O error, or a format error from the checks
of a block that was read. A block that is in the caches is not read again, and below
`TREE_MAX_DEPTH` levels none is. A failed read leaves an `EMPTY` cache (`leaveCache`), after which
the caches no longer hold the tree.

Results:

* `walkTree_readable`: a move that succeeds does not change which blocks can be read.
* `descend_damaged`: going down to a leaf ends as without the damage, or with an error at
  the first block on the way that cannot be read.
-/

namespace IndexFs.Tree

open IndexFs.Multiway

variable {σ : Type}

/-! ## Damage -/

/-- The container without the blocks `lost`, each of which fails with its code. -/
def damaged (env : TreeEnv σ) (lost : ℕ → Option ErrorCode) : TreeEnv σ :=
  { env with
    readBlock := fun v =>
      match lost v with
      | some e => throw e
      | none => env.readBlock v }

/-- The codes of reads: none stops the program. -/
def CodesOnly (lost : ℕ → Option ErrorCode) : Prop := ∀ v e, lost v = some e → e.stops = false

/-- The block is not lost, or in the caches. -/
def readable (lost : ℕ → Option ErrorCode) (t : ObjectTree σ) (v : ℕ) : Bool :=
  (lost v).isNone || (t.caches v).isSome

/-- In a tree with `H` levels below the root block, the cursor can enter a block with `h` levels below it. -/
def enterable (H : ℕ) (lost : ℕ → Option ErrorCode) (t : ObjectTree σ) (h v : ℕ) : Bool :=
  decide (H - h < treeMaxDepth) && readable lost t v

variable {m : ContainerModel σ} {t t' : ObjectTree σ} {H h : ℕ} {X : List ℕ} {env : TreeEnv σ} {fails : Prop}
  {lost : ℕ → Option ErrorCode} {flags : WalkFlags}

theorem enterable_congr (h : readable lost t' = readable lost t) : enterable H lost t' = enterable H lost t := by
  unfold enterable
  rw [h]

theorem damaged_lost {v : ℕ} {e : ErrorCode} (h : lost v = some e) : (damaged env lost).readBlock v = throw e := by
  unfold damaged
  simp only [h]

theorem damaged_kept {v : ℕ} (h : lost v = none) : (damaged env lost).readBlock v = env.readBlock v := by
  unfold damaged
  simp only [h]

/-! ## What can be read stays the same -/

section Readable

theorem cacheVbn_keeps (ref : CacheRef) : Keeps (fun t : ObjectTree σ => t) (cacheVbn ref) := by
  cases ref with
  | root => exact Keeps.get.bind fun t => Keeps.pure _
  | block vbn => exact Keeps.pure _

theorem setPosition_readable (pos : ℕ) : Keeps (readable (σ := σ) lost) (setPosition pos) :=
  Keeps.modify fun _ => rfl

theorem onCt_readable {α : Type} (x : EStateM ErrorCode σ α) : Keeps (readable lost) (onCt x) := by
  intro t
  rw [ends_onCt]
  exact (ends_true x t.ct).mono (fun _ _ _ => rfl) fun _ _ _ => rfl

theorem getPrevIe_readable : Keeps (readable (σ := σ) lost) getPrevIe := by
  unfold getPrevIe
  refine top_keeps.through.bind fun f => currentIe_keeps.through.bind fun ie => Keeps.ite (Keeps.throw _) ?_
  refine (setPosition_readable _).bind fun _ => currentIe_keeps.through.bind fun prev => ?_
  exact Keeps.ite (Keeps.ite (Keeps.pure _) (Keeps.throw _)) (Keeps.pure _)

theorem popCacheStack_readable : Keeps (readable (σ := σ) lost) (popCacheStack flags) := by
  unfold popCacheStack
  intro t
  rw [ends_bind, ends_get]
  refine ends_ite.mpr ⟨fun _ => rfl, fun _ => ?_⟩
  rw [ends_bind, ends_set]
  exact Keeps.ite getPrevIe_readable (Keeps.pure _) _

theorem getNextIe_readable : Keeps (readable (σ := σ) lost) getNextIe := by
  unfold getNextIe
  refine top_keeps.through.bind fun f => currentIe_keeps.through.bind fun ie => Keeps.ite (Keeps.throw _) ?_
  refine (getIb_keeps _).through.bind fun ib => (setPosition_readable _).bind fun _ => ?_
  refine Keeps.ite (Keeps.throw _) (currentIe_keeps.through.bind fun next => ?_)
  exact Keeps.ite (Keeps.throw _) (Keeps.pure _)

/-- A block that was read is not lost. Where the read fails the block has a cache afterwards. -/
theorem indexBlockRead_readable (vbn : ℕ) :
    KeepsOk (readable lost) (indexBlockRead (damaged env lost) vbn) := by
  unfold indexBlockRead
  refine top_keeps.through.ok.bind fun f => (cacheVbn_keeps _).through.ok.bind fun v => ?_
  refine KeepsOk.ite (Keeps.pure _).ok (Keeps.get.ok.bind fun t => ?_)
  cases t.caches vbn with
  | some c => exact (Keeps.pure _).ok
  | none =>
    dsimp only
    intro s
    rw [ends_bind, ends_codeOf, ends_onCt]
    cases hlost : lost vbn with
    | some e =>
      rw [damaged_lost hlost, ends_throw]
      split_ifs
      all_goals trivial
    | none =>
      refine (ends_true _ s.ct).mono (fun c ct _ => funext fun w => ?_) fun e ct _ => ?_
      · unfold readable
        dsimp only
        by_cases hw : w = vbn
        · rw [hw, hlost]
          rfl
        · rw [Function.update_of_ne hw]
      · split_ifs
        all_goals trivial

theorem pushCacheStack_readable : KeepsOk (readable lost) (pushCacheStack (damaged env lost) flags) := by
  unfold pushCacheStack
  refine Keeps.get.ok.bind fun t => KeepsOk.ite (KeepsOk.throw _) ?_
  refine currentIe_keeps.through.ok.bind fun ie => (indexBlockRead_readable _).bind fun ref => ?_
  exact (getIb_keeps _).through.ok.bind fun ib => Keeps.ok (Keeps.modify fun _ => rfl)

theorem descend_readable (fuel : ℕ) : KeepsOk (readable lost) (descend (damaged env lost) flags fuel) := by
  induction fuel with
  | zero => exact KeepsOk.throw _
  | succ fuel ih =>
    unfold descend
    refine currentIe_keeps.through.ok.bind fun ie => ?_
    exact KeepsOk.ite (pushCacheStack_readable.bind fun _ => ih) (Keeps.pure _).ok

theorem ascend_readable (fuel : ℕ) : Keeps (readable lost) (ascend (damaged env lost) flags fuel) := by
  induction fuel with
  | zero => exact Keeps.throw _
  | succ fuel ih =>
    have hpop : Keeps (readable lost) (do let _ ← popCacheStack flags; ascend (damaged env lost) flags fuel) :=
      popCacheStack_readable.bind fun _ => ih
    have hfree : Keeps (readable lost) (addOrRemoveIb (damaged env lost) flags) :=
      Keeps.ite (top_keeps.through.bind fun f => (cacheVbn_keeps _).through.bind fun _ => onCt_readable _) (Keeps.pure _)
    unfold ascend
    refine currentIe_keeps.through.bind fun ie => Keeps.ite (hfree.bind fun _ => ?_) (Keeps.pure _)
    refine Keeps.ite (Keeps.ite (Keeps.pure _) (getPrevIe_readable.bind fun r => ?_)) hpop
    cases r with
    | entry => exact Keeps.pure _
    | gettoBegin => exact hpop

/-- A move that succeeds does not change which blocks can be read. -/
theorem walkTree_readable : KeepsOk (readable lost) (walkTree (damaged env lost) flags) := by
  have hrest : KeepsOk (readable lost) (getCurrentIe (damaged env lost) flags) :=
    (descend_readable _).bind fun _ => (ascend_readable _).ok
  unfold walkTree
  dsimp only
  split_ifs
  · have hreset : Keeps (readable (σ := σ) lost) (resetCacheStack flags) := Keeps.modify fun _ => rfl
    exact hreset.ok.bind fun _ => hrest
  · refine currentIe_keeps.through.ok.bind fun ie => ?_
    split_ifs
    · exact hrest
    · exact getPrevIe_readable.ok.bind fun _ => hrest
  · exact hrest
  · exact getNextIe_readable.ok.bind fun _ => hrest

end Readable

/-! ## Going down -/

section Descend

/-- `index_block_read` of a block that can be read. -/
theorem indexBlockRead_damaged {v : ℕ} (hv : readable lost t v = true) :
    indexBlockRead (damaged env lost) v t = indexBlockRead env v t := by
  unfold indexBlockRead
  refine bind_congr_at fun f t₁ hf => bind_congr_at fun w t₂ hw => ?_
  obtain rfl : t₁ = t := top_keeps.of_ok hf
  obtain rfl : t₂ = t₁ := (cacheVbn_keeps f.cache).of_ok hw
  split_ifs
  · rfl
  · refine bind_congr_at fun s t₃ hs => ?_
    cases hs
    unfold readable at hv
    cases hc : t₂.caches v with
    | some c => rfl
    | none =>
      rw [hc, Option.isSome_none, Bool.or_false, Option.isNone_iff_eq_none] at hv
      rw [damaged_kept hv]
      rfl

/-- A block that cannot be read. Its cache stays. -/
theorem indexBlockRead_lost (hcodes : CodesOnly lost) {f : Frame} {fs : List Frame} {up : TPath H h} {i v : ℕ}
    (hstack : t.stack = f :: fs) (hf : f.cache = refOf up i) (hup : HoldsPath m t up i) (hne : i ≠ v)
    (hv : readable lost t v = false) :
    ∃ e, lost v = some e ∧ indexBlockRead (damaged env lost) v t = .error e (leaveCache env v e t) := by
  unfold readable at hv
  rw [Bool.or_eq_false_iff, Option.isNone_eq_false_iff, Option.isSome_eq_false_iff, Option.isNone_iff_eq_none] at hv
  obtain ⟨e, he⟩ := Option.isSome_iff_exists.mp hv.1
  have hends : Ends (indexBlockRead (damaged env lost) v) t (fun _ _ => False)
      fun e' t' => e' = e ∧ t' = leaveCache env v e t := by
    unfold indexBlockRead
    rw [ends_bind, ends_top hstack, hf, ends_bind, ends_cacheVbn hup, if_neg hne, ends_bind, ends_get, hv.2]
    dsimp only
    rw [ends_bind, ends_codeOf, ends_onCt, damaged_lost he, ends_throw, if_neg (by rw [hcodes v e he]; simp)]
    exact ⟨rfl, rfl⟩
  obtain ⟨_, _, _, h⟩ | ⟨e', t', heq, rfl, rfl⟩ := ends_iff.mp hends
  · exact h.elim
  · exact ⟨e', he, heq⟩

section Push

variable {i j : ℕ} {before : List (TNode (h + 1) × KeyValue)} {after : List (KeyValue × TNode (h + 1))}
  {up : TPath H (h + 2)} {B : List (TNode h × KeyValue)} {d : TNode h} {A : List (KeyValue × TNode h)}

theorem pushCacheStack_deep (hr : Rep m t (.down i before after up) (Node.plug j B d A) X)
    (hdeep : treeMaxDepth ≤ up.spine.length + 1) : pushCacheStack env flags t = .error .maxDepth t := by
  have hdepth : depth t ≥ treeMaxDepth - 1 := by
    unfold depth
    rw [hr.stack, frames_length]
    simp only [Path.spine, List.length_cons]
    omega
  simp only [pushCacheStack, Bind.bind, EStateM.bind, get, getThe, MonadStateOf.get, EStateM.get, if_pos hdepth]
  rfl

theorem currentIe_child (hr : Rep m t (.down i before after up) (Node.plug j B d A) X) :
    ∃ ie, currentIe t = .ok ie t ∧ ie.vbn = j ∧ ie.isNode = true := by
  have hends : Ends (currentIe : TreeM σ IndexEntry) t (fun ie t' => t' = t ∧ ie.vbn = j ∧ ie.isNode = true)
      fun _ _ => False := by
    rw [ends_currentIe hr, curIe_vbn, num_plug, curIe_isNode]
    exact ⟨rfl, rfl, rfl⟩
  obtain ⟨ie, t', hie, rfl, hvbn⟩ | ⟨_, _, _, h⟩ := ends_iff.mp hends
  · exact ⟨ie, hie, hvbn⟩
  · exact h.elim

/-- The cursor goes down to a block that can be read as without the damage. -/
theorem pushCacheStack_damaged (hr : Rep m t (.down i before after up) (Node.plug j B d A) X)
    (hread : readable lost t j = true) : pushCacheStack (damaged env lost) flags t = pushCacheStack env flags t := by
  obtain ⟨ie, hie, rfl, -⟩ := currentIe_child hr
  unfold pushCacheStack
  refine bind_congr_at fun s t₁ hs => ?_
  cases hs
  by_cases hdeep : depth t ≥ treeMaxDepth - 1
  · rw [if_pos hdeep, if_pos hdeep]
  · rw [if_neg hdeep, if_neg hdeep]
    refine bind_congr_at fun ie' t₁ hie' => ?_
    rw [hie] at hie'
    cases hie'
    have hsame : indexBlockRead (damaged env lost) ie.vbn t = indexBlockRead env ie.vbn t := indexBlockRead_damaged hread
    simp only [Bind.bind, EStateM.bind, hsame]

theorem pushCacheStack_lost (hcodes : CodesOnly lost)
    (hr : Rep m t (.down i before after up) (Node.plug j B d A) X)
    (hdepth : up.spine.length + 1 < treeMaxDepth) (hread : readable lost t j = false) :
    ∃ e, lost j = some e ∧ pushCacheStack (damaged env lost) flags t = .error e (leaveCache env j e t) := by
  obtain ⟨ie, hie, rfl, -⟩ := currentIe_child hr
  have hne : i ≠ ie.vbn := hr.ne_child
  have hlen : t.stack.length = up.spine.length + 1 := by
    rw [hr.stack, frames_length]
    rfl
  obtain ⟨e, he, hlost⟩ : ∃ e, lost ie.vbn = some e ∧
      indexBlockRead (damaged env lost) ie.vbn t = .error e (leaveCache env ie.vbn e t) :=
    indexBlockRead_lost hcodes hr.stack rfl hr.path.2.2.2 hne hread
  refine ⟨e, he, ?_⟩
  have hdeep : ¬ depth t ≥ treeMaxDepth - 1 := by
    unfold depth
    omega
  simp only [pushCacheStack, Bind.bind, EStateM.bind, get, getThe, MonadStateOf.get, EStateM.get, if_neg hdeep, hie,
    hlost]

end Push

/-- Going up reads no blocks. -/
theorem ascend_damaged (fuel : ℕ) : ascend (damaged env lost) flags fuel = ascend env flags fuel := by
  induction fuel with
  | zero => rfl
  | succ fuel ih =>
    unfold ascend
    rw [ih]
    rfl

variable {rev : Bool}

/-- The loop that goes down ends as without the damage, or fails at the first block of the edge that
cannot be entered. -/
theorem descend_damaged (hl : LawfulEnv env m fails) (hcodes : CodesOnly lost)
    (hflags : (flags.getLast ∨ flags.getPrev) ↔ rev = true) {n : TNode h} {i : ℕ}
    {before : List (TNode h × KeyValue)} {after : List (KeyValue × TNode h)} {up : TPath (H + 1) (h + 1)}
    (hr : Rep m t (.down i before after up) n X) (hdepth : up.spine.length < treeMaxDepth) {fuel : ℕ}
    (hfuel : treeMaxDepth < up.spine.length + fuel) :
    Ends (descend (damaged env lost) flags fuel) t
      (fun _ t' => (∀ e ∈ n.edge rev, e.within (enterable H lost t) = true) ∧ descend env flags fuel t = .ok () t')
      (fun e _ => (∃ e ∈ n.edge rev, e.within (enterable H lost t) = false) ∧ e.stops = false) := by
  induction h generalizing t i fuel with
  | zero =>
    obtain ⟨fuel, rfl⟩ : ∃ f, fuel = f + 1 := ⟨fuel - 1, by omega⟩
    have hstay : ∀ env : TreeEnv σ, Ends (descend env flags (fuel + 1)) t (fun _ t' => t' = t) fun _ _ => False := by
      intro env
      unfold descend
      rw [ends_bind, ends_currentIe hr, if_neg (by simp [isLarge]), ends_pure]
    obtain ⟨_, t', heq, rfl⟩ | ⟨_, _, _, h⟩ := ends_iff.mp (hstay env)
    · refine (hstay (damaged env lost)).mono (fun _ t₁ h₁ => ?_) fun _ _ h => h.elim
      exact ⟨by simp [Node.edge, Node.trail], h₁ ▸ heq⟩
    · exact h.elim
  | succ h ih =>
    obtain ⟨fuel, rfl⟩ : ∃ f, fuel = f + 1 := ⟨fuel - 1, by omega⟩
    have hlen := up.spine_length
    obtain ⟨j, B, d, A, rfl, hcut⟩ := n.exists_plug_edge (rev = true)
    rw [edge_plug hcut]
    unfold descend
    rw [ends_bind, ends_currentIe hr, if_pos (by simp [isLarge])]
    by_cases hdeep : treeMaxDepth ≤ up.spine.length + 1
    · refine Ends.bind ((ends_of_error (pushCacheStack_deep hr hdeep)).mpr ⟨⟨_, List.mem_cons_self, ?_⟩, rfl⟩)
      simp only [Event.within, enterable]
      rw [decide_eq_false (by omega), Bool.false_and]
    cases hread : readable lost t j with
    | false =>
      obtain ⟨e, he, hpush⟩ : ∃ e, lost j = some e ∧
          pushCacheStack (damaged env lost) flags t = .error e (leaveCache env j e t) :=
        pushCacheStack_lost hcodes hr (by omega) hread
      refine Ends.bind ((ends_of_error hpush).mpr ⟨⟨_, List.mem_cons_self, ?_⟩, hcodes j e he⟩)
      simp only [Event.within, enterable]
      rw [hread, Bool.and_false]
    | true =>
      have hcut' : if flags.getLast ∨ flags.getPrev then A = [] else B = [] := by simpa only [hflags] using hcut
      have hspec := pushCacheStack_spec hl hr (by omega) hcut'
      obtain ⟨_, t₁, hpush, hr₁, -⟩ | ⟨_, _, _, h⟩ := ends_iff.mp hspec
      · have hpush' : pushCacheStack (damaged env lost) flags t = .ok () t₁ :=
          (pushCacheStack_damaged hr hread).trans hpush
        have hsame : enterable H lost t₁ = enterable H lost t := enterable_congr (pushCacheStack_readable.of_ok hpush')
        refine Ends.bind ((ends_of_ok hpush').mpr ((ih hr₁ ?_ ?_).mono (fun _ t' hpost => ?_) fun e t' hpost => ?_))
        · simp only [Path.spine, List.length_cons]
          omega
        · simp only [Path.spine, List.length_cons]
          omega
        · rw [hsame] at hpost
          refine ⟨List.forall_mem_cons.mpr ⟨?_, hpost.1⟩, ?_⟩
          · simp only [Event.within, enterable]
            rw [hread, Bool.and_true, decide_eq_true (by omega)]
          · obtain ⟨ie, hie, -, hnode⟩ := currentIe_child hr
            simp only [Bind.bind, EStateM.bind, hie, if_pos hnode, hpush, hpost.2]
        · rw [hsame] at hpost
          obtain ⟨⟨b, hb, hbad⟩, hstops⟩ := hpost
          exact ⟨⟨b, List.mem_cons_of_mem _ hb, hbad⟩, hstops⟩
      · exact h.elim

/-- `get_current_ie`, if it ends in `Q` and `F` without the damage. -/
theorem getCurrentIe_damaged (hl : LawfulEnv env m fails) (hcodes : CodesOnly lost)
    (hflags : (flags.getLast ∨ flags.getPrev) ↔ rev = true) {n : TNode h} {i : ℕ}
    {before : List (TNode h × KeyValue)} {after : List (KeyValue × TNode h)} {up : TPath (H + 1) (h + 1)}
    (hr : Rep m t (.down i before after up) n X) (hdepth : up.spine.length < treeMaxDepth)
    {Q : ObjectTree σ → Prop} {F : Prop}
    (hok : (∀ e ∈ n.edge rev, e.within (enterable H lost t) = true) →
      Ends (getCurrentIe env flags) t (fun _ t' => Q t') fun e _ => e.stops = false ∧ F) :
    Ends (getCurrentIe (damaged env lost) flags) t
      (fun _ t' => (∀ e ∈ n.edge rev, e.within (enterable H lost t) = true) ∧ Q t')
      (fun e _ => e.stops = false ∧ ((∃ e ∈ n.edge rev, e.within (enterable H lost t) = false) ∨
        (∀ e ∈ n.edge rev, e.within (enterable H lost t) = true) ∧ F)) := by
  unfold getCurrentIe at hok ⊢
  refine (descend_damaged hl hcodes hflags hr hdepth (by omega)).seq' (fun _ t₁ hpost => ?_)
    fun e t₁ hpost => ⟨hpost.2, .inl hpost.1⟩
  have hrest := hok hpost.1
  rw [ends_bind, ends_of_ok hpost.2] at hrest
  rw [ascend_damaged]
  exact hrest.mono (fun _ t' hQ => ⟨hpost.1, hQ⟩) fun e t' hF => ⟨hF.1, .inr ⟨hpost.1, hF.2⟩⟩

end Descend

/-! ## Single moves -/

/-- The blocks that a walk enters and the entries that it passes, behind the root block. -/
def way (reverse : Bool) {H : ℕ} (n : TNode (H + 1)) : List (Event ℕ KeyValue) := (n.trail reverse).tail

section Moves

variable {n : TNode (H + 1)} {l r : List KeyValue} {kv : KeyValue}

/-- The blocks that `walk_tree` enters before the next entry. -/
def nextBlocks (rev : Bool) (n : TNode H) (k : ℕ) : List (Event ℕ KeyValue) :=
  (Event.after k (n.trail rev)).takeWhile Event.isEnter

theorem nextBlocks_next {i : ℕ} {B : List (TNode h × KeyValue)} {b b' : TNode h} {A : List (KeyValue × TNode h)}
    {q : TPath H (h + 1)} : nextBlocks false ((Path.down i B ((kv, b') :: A) q).fill b)
      (((Path.down i B ((kv, b') :: A) q).left ++ b.elems).length + 1) = b'.edge false := by
  have hafter := after_fill (v := false) (p := Path.down i B ((kv, b') :: A) q) (c := b) (a := kv)
    (R := b'.trail false ++ (trailFrom false B A ++ q.trailFrom false))
    (by simp [Path.trailFrom, trailFrom])
  unfold nextBlocks Node.edge
  rw [show ((Path.down i B ((kv, b') :: A) q).left ++ b.elems).length =
    ((Path.down i B ((kv, b') :: A) q).passed false ++ ordered false b.elems).length from rfl, hafter]
  exact takeWhile_led (led_trailFrom false B A (q.led_trailFrom false))

theorem nextBlocks_prev {i : ℕ} {B : List (TNode h × KeyValue)} {b b' : TNode h} {A : List (KeyValue × TNode h)}
    {q : TPath H (h + 1)} (hr : kv :: r = (Path.down i B ((kv, b') :: A) q).right) :
    nextBlocks true ((Path.down i B ((kv, b') :: A) q).fill b) (r.length + 1) = b.edge true := by
  have hfill : (Path.down i B ((kv, b') :: A) q).fill b = (Path.down i (B ++ [(b, kv)]) A q).fill b' :=
    fill_recut (chain_concat B b kv b' A).symm
  have hafter := after_fill (v := true) (p := Path.down i (B ++ [(b, kv)]) A q) (c := b') (a := kv)
    (R := b.trail true ++ (trailFrom true B A ++ q.trailFrom true))
    (by simp [Path.trailFrom, trailFrom])
  have hlen : ((Path.down i (B ++ [(b, kv)]) A q).passed true ++ ordered true b'.elems).length = r.length := by
    simp only [Path.right, Node.elemsAfter_cons, List.cons_append, List.cons.injEq] at hr
    rw [hr.2]
    simp [Path.passed, ordered, Path.right]
    omega
  unfold nextBlocks Node.edge
  rw [hfill, ← hlen, hafter]
  exact takeWhile_led (led_trailFrom true B A (q.led_trailFrom true))

/-- `walk_tree` without flags, if it comes to the block of the next entry. -/
theorem walkTree_next_damaged (hl : LawfulEnv env m fails) (hcodes : CodesOnly lost) (hH : H + 1 ≤ treeMaxDepth)
    (hc : Rests m t n X l kv r) :
    Ends (walkTree (damaged env lost) {}) t
      (fun _ t' => (∀ e ∈ nextBlocks false n (l.length + 1), e.within (enterable H lost t) = true) ∧
        ∃ kv' r', r = kv' :: r' ∧ Rests m t' n X (l ++ [kv]) kv' r')
      (fun e _ => e.stops = false ∧
        ((∃ e ∈ nextBlocks false n (l.length + 1), e.within (enterable H lost t) = false) ∨
          (∀ e ∈ nextBlocks false n (l.length + 1), e.within (enterable H lost t) = true) ∧ r = [])) := by
  obtain ⟨h, i, B, b, b', A, q, hr, hfill, hl', hr'⟩ := hc
  have hlen := q.spine_length
  have hedge : nextBlocks false n (l.length + 1) = b'.edge false := by
    rw [← hfill, hl', nextBlocks_next]
  have hfill₁ : (Path.down i (B ++ [(b, kv)]) A q).fill b' = n := by
    rw [← hfill]
    exact fill_recut (chain_concat B b kv b' A)
  have hleft : (Path.down i (B ++ [(b, kv)]) A q).left = l ++ [kv] := by
    rw [hl']
    simp [Path.left]
  have hright : b'.elems ++ (Path.down i (B ++ [(b, kv)]) A q).right = r := by
    simp only [Path.right, Node.elemsAfter_cons, List.cons_append, List.cons.injEq,
      List.append_assoc] at hr' ⊢
    exact hr'.2.symm
  unfold walkTree
  rw [if_neg (by simp), if_neg (by simp), if_pos (by simp), hedge]
  refine (getNextIe_spec hr).seq fun _ t₁ hpost => ?_
  obtain ⟨hr₁, -, hco⟩ := hpost
  have hsame : enterable H lost t₁ = enterable H lost t := by
    refine enterable_congr ?_
    unfold readable
    rw [hco.caches]
  rw [← hsame]
  refine getCurrentIe_damaged hl hcodes (by simp) hr₁ (by omega) fun _ => ?_
  refine (getCurrentIe_next hl hH rfl rfl rfl hr₁ hfill₁).mono (fun _ t' hpost => ?_) fun e t' hpost => ?_
  · obtain ⟨kv', r', hkv, hrests⟩ := hpost
    rw [hleft] at hrests
    exact ⟨kv', r', hright ▸ hkv, hrests⟩
  · exact ⟨by rw [hpost.1]; rfl, hright ▸ hpost.2.1⟩

/-- On an entry without a child `get_current_ie` reads no blocks. -/
theorem getCurrentIe_leaf {ie : IndexEntry} (hie : currentIe t = .ok ie t) (hleaf : ie.isNode = false) :
    getCurrentIe (damaged env lost) flags t = getCurrentIe env flags t := by
  have hstay : ∀ env : TreeEnv σ, descend env flags (treeMaxDepth + 1) t = .ok () t := by
    intro env
    unfold descend
    simp only [Bind.bind, EStateM.bind, hie, hleaf]
    rfl
  unfold getCurrentIe
  simp only [Bind.bind, EStateM.bind, hstay, ascend_damaged]

/-- In a leaf `get_prev_ie` comes to an entry without a child. -/
theorem getPrevIe_leaf {i : ℕ} {B : List (TNode 0 × KeyValue)} {b : TNode 0} {A : List (KeyValue × TNode 0)}
    {q : TPath H 1} (hr : Rep m t (.down i B A q) b X) :
    Ends (getPrevIe : TreeM σ PrevResult) t (fun _ t' => ∃ ie, currentIe t' = .ok ie t' ∧ ie.isNode = false)
      fun _ _ => True := by
  have hcurrent : ∀ {t' : ObjectTree σ}, Ends currentIe t' (fun ie _ => ie.isNode = false) (fun _ _ => False) →
      ∃ ie, currentIe t' = .ok ie t' ∧ ie.isNode = false := by
    intro t' h
    obtain ⟨ie, t₁, hie, hleaf⟩ | ⟨_, _, _, h⟩ := ends_iff.mp h
    · obtain rfl : t₁ = t' := currentIe_keeps.of_ok hie
      exact ⟨ie, hie, hleaf⟩
    · exact h.elim
  cases B using List.reverseRecOn with
  | nil =>
    refine (getPrevIe_first hr).mono (fun _ t' hpost => hcurrent ?_) fun _ _ h => h
    rw [hpost.2.1.currentIe]
    rfl
  | append_singleton B x =>
    obtain ⟨c', kv⟩ := x
    refine (getPrevIe_spec hr).mono (fun _ t' hpost => hcurrent ?_) fun _ _ h => h
    rw [ends_currentIe hpost.2.1, curIe_isNode]
    rfl

/-- `walk_tree` with `INDEX_GET_PREV`, if it comes to the block of the entry before. -/
theorem walkTree_prev_damaged (hl : LawfulEnv env m fails) (hcodes : CodesOnly lost) (hH : H + 1 ≤ treeMaxDepth)
    (hc : Rests m t n X l kv r) :
    Ends (walkTree (damaged env lost) { getPrev := true }) t
      (fun _ t' => (∀ e ∈ nextBlocks true n (r.length + 1), e.within (enterable H lost t) = true) ∧
        ∃ l' kv', l = l' ++ [kv'] ∧ Rests m t' n X l' kv' (kv :: r))
      (fun e _ => e.stops = false ∧
        ((∃ e ∈ nextBlocks true n (r.length + 1), e.within (enterable H lost t) = false) ∨
          (∀ e ∈ nextBlocks true n (r.length + 1), e.within (enterable H lost t) = true) ∧ l = [])) := by
  have hspec := walkTree_prev hl hH hc
  obtain ⟨h, i, B, b, b', A, q, hr, hfill, -, hr'⟩ := hc
  have hlen := q.spine_length
  have hedge : nextBlocks true n (r.length + 1) = b.edge true := by
    rw [← hfill, nextBlocks_prev hr']
  rw [hedge]
  cases h with
  | zero =>
    have hnone : b.edge true = [] := rfl
    have hleaf : Ends currentIe t (fun ie _ => ie.isNode = false) (fun _ _ => True) := by
      rw [ends_currentIe hr, curIe_isNode]
      rfl
    have hsame : walkTree (damaged env lost) { getPrev := true } t = walkTree env { getPrev := true } t := by
      unfold walkTree
      rw [if_neg (by simp), if_pos rfl, if_neg (by simp), if_pos rfl]
      refine bind_congr_at fun ie t₁ hie => ?_
      rw [ends_of_ok hie] at hleaf
      obtain rfl : t₁ = t := currentIe_keeps.of_ok hie
      rw [if_pos (by simp [hleaf]), if_pos (by simp [hleaf])]
      refine bind_congr_at fun res t₂ hres => ?_
      obtain ⟨ie', hie', hleaf'⟩ := (ends_of_ok hres).mp (getPrevIe_leaf hr)
      exact getCurrentIe_leaf hie' hleaf'
    have hspec' : Ends (walkTree (damaged env lost) { getPrev := true }) t
        (fun _ t' => ∃ l' kv', l = l' ++ [kv'] ∧ Rests m t' n X l' kv' (kv :: r))
        (fun e t' => e = .root ∧ l = [] ∧ HoldsTree m t' n) := by
      unfold Ends at hspec ⊢
      rwa [hsame]
    rw [hnone]
    exact hspec'.mono (fun _ t' h => ⟨by simp, h⟩) fun e t' h => ⟨by rw [h.1]; rfl, .inr ⟨by simp, h.2.1⟩⟩
  | succ h =>
    unfold walkTree at hspec ⊢
    rw [if_neg (by simp), if_pos rfl, ends_bind, ends_currentIe hr, curIe_isNode, if_neg (by simp [isLarge])] at hspec ⊢
    refine getCurrentIe_damaged hl hcodes (by simp) hr (by omega) fun _ => ?_
    exact hspec.mono (fun _ t' h => h) fun e t' h => ⟨by rw [h.1]; rfl, h.2.1⟩

/-- A tree whose leaves can be reached is not too deep. -/
theorem depth_of_edge {rev : Bool} {c : TNode H} (h : ∀ e ∈ c.edge rev, e.within (enterable H lost t) = true) :
    H + 1 ≤ treeMaxDepth := by
  cases H with
  | zero => decide
  | succ H =>
    obtain ⟨i, hi⟩ := exists_leaf_edge rev c
    have hleaf := h _ hi
    simp only [Event.within, enterable, Bool.and_eq_true, decide_eq_true_eq, Nat.sub_zero] at hleaf
    omega

/-- The blocks on the way to the first entry. -/
theorem firstBlocks {rev : Bool} {i : ℕ} {before : List (TNode H × KeyValue)} {c : TNode H}
    {after : List (KeyValue × TNode H)} (hcut : if rev then after = [] else before = []) :
    (way rev (Node.plug i before c after)).takeWhile Event.isEnter = c.edge rev := by
  have hedge := edge_plug (i := i) (c := c) hcut
  unfold way
  unfold Node.edge at hedge ⊢
  rw [trail_plug, List.takeWhile_cons_of_pos rfl] at hedge
  rw [trail_plug]
  exact List.tail_eq_of_cons_eq hedge

/-- What `walk_tree` does when it starts in the direction `rev`. -/
def Starts (env : TreeEnv σ) (lost : ℕ → Option ErrorCode) (rev : Bool) (n : TNode (H + 1)) (flags : WalkFlags)
    (t : ObjectTree σ) (Q : ObjectTree σ → Prop) : Prop :=
  Ends (walkTree (damaged env lost) flags) t
    (fun _ t' => (∀ e ∈ (way rev n).takeWhile Event.isEnter, e.within (enterable H lost t) = true) ∧
      H + 1 ≤ treeMaxDepth ∧ Q t')
    (fun e _ => e.stops = false ∧
      ((∃ e ∈ (way rev n).takeWhile Event.isEnter, e.within (enterable H lost t) = false) ∨
        (∀ e ∈ (way rev n).takeWhile Event.isEnter, e.within (enterable H lost t) = true) ∧ n.elems = []))

theorem starts_of_reset (hl : LawfulEnv env m fails) (hcodes : CodesOnly lost) {rev : Bool}
    (hreset : flags.getFirst ∨ flags.getLast) (hflags : (flags.getLast ∨ flags.getPrev) ↔ rev = true)
    {Q : ObjectTree σ → Prop}
    (hpos : Ends (resetCacheStack flags : TreeM σ Unit) t
      (fun _ t₁ => ∃ i before c after, (if rev then after = [] else before = []) ∧ Node.plug i before c after = n ∧
        Rep m t₁ (.down i before after (.top : TPath (H + 1) (H + 1))) c [] ∧
        (H + 1 ≤ treeMaxDepth → Ends (getCurrentIe env flags) t₁ (fun _ t' => Q t') fun e _ => e = .root ∧ n.elems = []))
      fun _ _ => False) : Starts env lost rev n flags t Q := by
  have hkeep : Keeps (readable (σ := σ) lost) (resetCacheStack flags) := Keeps.modify fun _ => rfl
  unfold Starts walkTree
  rw [if_pos hreset]
  refine (hpos.and (hkeep t)).seq' (fun _ t₁ hpost => ?_) fun _ _ h => h.1.elim
  obtain ⟨⟨i, before, c, after, hcut, hplug, hr, hrest⟩, hread⟩ := hpost
  have hsame : enterable H lost t = enterable H lost t₁ := by
    unfold enterable
    rw [hread]
  have hedge : (way rev n).takeWhile Event.isEnter = c.edge rev := hplug ▸ firstBlocks hcut
  rw [hsame, hedge]
  refine getCurrentIe_damaged hl hcodes hflags hr (by simp [Path.spine, treeMaxDepth]) fun hentered => ?_
  have hH := depth_of_edge hentered
  exact (hrest hH).mono (fun _ t' hQ => ⟨hH, hQ⟩) fun e t' hF => ⟨by rw [hF.1]; rfl, hF.2⟩

/-- `walk_tree` with `INDEX_GET_FIRST`. -/
theorem walkTree_first_damaged (hl : LawfulEnv env m fails) (hcodes : CodesOnly lost) (ht : HoldsTree m t n) :
    Starts env lost false n { getFirst := true } t fun t' => ∃ kv r, n.elems = kv :: r ∧ Rests m t' n [] [] kv r := by
  obtain ⟨i, c, rest, rfl⟩ := n.exists_block
  have helems : (Node.block i c rest).elems =
      c.elems ++ (Path.down i [] rest (.top : TPath (H + 1) (H + 1))).right := by
    simp [Path.right, Node.elems_block]
  refine starts_of_reset hl hcodes (.inl rfl) (by simp) (resetCacheStack_spec rfl ht fun t₁ hr _ => ?_)
  refine ⟨i, [], c, rest, by simp, rfl, hr, fun hH => ?_⟩
  rw [helems]
  exact (getCurrentIe_next hl hH rfl rfl rfl hr rfl).mono (fun _ _ h => h) fun e t' h => ⟨h.1, h.2.1⟩

/-- `walk_tree` with `INDEX_GET_LAST`. -/
theorem walkTree_last_damaged (hl : LawfulEnv env m fails) (hcodes : CodesOnly lost) (ht : HoldsTree m t n) :
    Starts env lost true n { getLast := true } t fun t' => ∃ l kv, n.elems = l ++ [kv] ∧ Rests m t' n [] l kv [] := by
  refine starts_of_reset hl hcodes (.inr rfl) (by simp) (ht.resetLast fun t₁ hend => ?_)
  obtain ⟨i, B, b, hr, hfill⟩ := hend
  refine ⟨i, B, b, [], rfl, hfill, hr, fun hH => ?_⟩
  exact (getCurrentIe_last hl hH hr hfill).mono (fun _ _ h => h) fun e t' h => ⟨h.1, h.2.1⟩

end Moves

end IndexFs.Tree
