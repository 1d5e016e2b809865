import IndexFs.Tree.Damaged
import IndexFs.Tree.RemoveKey
import IndexFs.Tree.WalkAll

/-!
# Walks that end too early

`index_walk_all` (`object_system/ofs_btree.c`, lines 1391–1427) goes on while
`walk_tree` returns zero and returns zero itself when it stops, whatever the code was:
`-INDEX_ERR_ROOT` at the end of the tree, or a failed read, a malformed entry, a depth
that is too large. Only the code of the callback comes out.

Results:

* `indexWalkAll_of_walk`: the code that ends the walk makes no difference.
* `walk_all_exact`: the function reports a truncated walk exactly when it is not
  truncated, or the callback fails on what it saw of the tree.
* `walk_all_unreadable`: a leaf that cannot be read is skipped with a zero.
-/

namespace IndexFs.Tree

open IndexFs.Multiway IndexFs.Collate

variable {σ π : Type}

/-! ## Walks -/

/-- From the cursor on, `walk_tree` finds the entries `ies` and ends with `e`. -/
inductive Walks (env : TreeEnv σ) (flags : WalkFlags) : ObjectTree σ → List IndexEntry → ErrorCode → Prop
  | last {t t' ie e} : currentIe t = .ok ie t → walkTree env flags t = .error e t' → e.stops = false →
      Walks env flags t [ie] e
  | next {t t' ie ies e} : currentIe t = .ok ie t → walkTree env flags t = .ok () t' → Walks env flags t' ies e →
      Walks env flags t (ie :: ies) e

/-- The entries that a whole walk finds, and the code with which it ends. -/
def WholeWalk (env : TreeEnv σ) (reverse removeBlock : Bool) (t : ObjectTree σ) (ies : List IndexEntry)
    (e : ErrorCode) : Prop :=
  (ies = [] ∧ e.stops = false ∧
    ∃ t', walkTree env { getFirst := !reverse, getLast := reverse, removeBlock } t = .error e t') ∨
  ∃ t', walkTree env { getFirst := !reverse, getLast := reverse, removeBlock } t = .ok () t' ∧
    Walks env { getPrev := reverse, removeBlock } t' ies e

variable {env : TreeEnv σ} {flags : WalkFlags} {t : ObjectTree σ} {ies : List IndexEntry} {e : ErrorCode}

theorem callAll_cons_error {cb : IndexEntry → EStateM ErrorCode π Unit} {ie : IndexEntry} {p p' : π} {e' : ErrorCode}
    (h : cb ie p = .error e' p') : callAll cb (ie :: ies) p = .error e' p' := by
  simp [callAll, bind, EStateM.bind, h]

theorem callAll_cons_ok {cb : IndexEntry → EStateM ErrorCode π Unit} {ie : IndexEntry} {p p' : π}
    (h : cb ie p = .ok () p') : callAll cb (ie :: ies) p = callAll cb ies p' := by
  simp [callAll, bind, EStateM.bind, h]

/-- The loop calls back on the entries of the walk and forgets the code that ended it. -/
theorem walkLoop_of_walks (h : Walks env flags t ies e) (cb : IndexEntry → EStateM ErrorCode π Unit) {p : π}
    {fuel : ℕ} (hfuel : ies.length ≤ fuel) :
    Ends (walkLoop env flags cb fuel) (t, p) (fun _ s => callAll cb ies p = .ok () s.2)
      (fun e' s => callAll cb ies p = .error e' s.2) := by
  induction h generalizing p fuel with
  | @last t t' ie e hie hwalk hstops =>
    obtain ⟨fuel, rfl⟩ : ∃ f, fuel = f + 1 := ⟨fuel - 1, by simp at hfuel; omega⟩
    unfold walkLoop
    refine Ends.bind (ends_zoom.mpr ((ends_of_ok hie).mpr (Ends.bind (ends_zoom.mpr ?_))))
    cases hcb : cb ie p with
    | error e' p' => exact (ends_of_error hcb).mpr (callAll_cons_error hcb)
    | ok u p' =>
      refine (ends_of_ok hcb).mpr (Ends.bind (Ends.codeOf (ends_zoom.mpr ((ends_of_error hwalk).mpr ⟨hstops, ?_⟩))))
      exact callAll_cons_ok hcb
  | @next t t' ie ies e hie hwalk _ ih =>
    obtain ⟨fuel, rfl⟩ : ∃ f, fuel = f + 1 := ⟨fuel - 1, by simp at hfuel; omega⟩
    unfold walkLoop
    refine Ends.bind (ends_zoom.mpr ((ends_of_ok hie).mpr (Ends.bind (ends_zoom.mpr ?_))))
    cases hcb : cb ie p with
    | error e' p' => exact (ends_of_error hcb).mpr (callAll_cons_error hcb)
    | ok u p' =>
      refine (ends_of_ok hcb).mpr (Ends.bind (Ends.codeOf (ends_zoom.mpr ((ends_of_ok hwalk).mpr ?_))))
      rw [callAll_cons_ok hcb]
      exact ih (by simpa using hfuel)

/-- `index_walk_all` returns what the callback does with the entries of the walk. -/
theorem indexWalkAll_of_walk {reverse removeBlock : Bool} (h : WholeWalk env reverse removeBlock t ies e)
    (cb : IndexEntry → EStateM ErrorCode π Unit) {p : π} {fuel : ℕ} (hfuel : ies.length ≤ fuel) :
    Ends (indexWalkAll env reverse removeBlock cb fuel) (t, p) (fun _ s => callAll cb ies p = .ok () s.2)
      (fun e' s => callAll cb ies p = .error e' s.2) := by
  unfold indexWalkAll
  obtain ⟨rfl, hstops, t', hwalk⟩ | ⟨t', hwalk, hrest⟩ := h
  · exact Ends.bind (Ends.codeOf (ends_zoom.mpr ((ends_of_error hwalk).mpr ⟨hstops, rfl⟩)))
  · exact Ends.bind (Ends.codeOf (ends_zoom.mpr ((ends_of_ok hwalk).mpr (walkLoop_of_walks hrest cb hfuel))))

/-! ## Walks through a damaged tree -/

/-- `S t (kv :: L) T`: the cursor is on `kv`, `T` is the way on, and `L` are the entries there. -/
structure Guided (env : TreeEnv σ) (flags : WalkFlags) (ok : ℕ → ℕ → Bool)
    (S : ObjectTree σ → List KeyValue → List (Event ℕ KeyValue) → Prop) : Prop where
  current : ∀ {t kv L T}, S t (kv :: L) T → ∃ ie : IndexEntry, currentIe t = .ok ie t ∧ (ie.key, ie.value) = kv
  entries : ∀ {t kv L T}, S t (kv :: L) T → Event.entries T = L
  step : ∀ {t kv L T}, S t (kv :: L) T → Ends (walkTree env flags) t
    (fun _ t' => (∀ e ∈ T.takeWhile Event.isEnter, e.within ok = true) ∧ L ≠ [] ∧ S t' L (Event.after 1 T))
    (fun e _ => e.stops = false ∧ ((∃ e ∈ T.takeWhile Event.isEnter, e.within ok = false) ∨ L = []))

variable {ok : ℕ → ℕ → Bool} {S : ObjectTree σ → List KeyValue → List (Event ℕ KeyValue) → Prop}

/-- The walk goes on to the first block that it cannot enter. -/
theorem Guided.walks (hg : Guided env flags ok S) {L : List KeyValue} {kv : KeyValue} {T : List (Event ℕ KeyValue)}
    (hS : S t (kv :: L) T) :
    ∃ ies e, Walks env flags t ies e ∧ EntriesOf ies (kv :: Event.reached ok T) := by
  induction L generalizing t kv T with
  | nil =>
    obtain ⟨ie, hie, hkv⟩ := hg.current hS
    obtain ⟨_, t', hwalk, -, hne, -⟩ | ⟨e, t', hwalk, hstops, -⟩ := ends_iff.mp (hg.step hS)
    · exact absurd rfl hne
    · refine ⟨[ie], e, .last hie hwalk hstops, ?_⟩
      rw [Event.reached_end (hg.entries hS)]
      simp [EntriesOf, hkv]
  | cons kv' L ih =>
    obtain ⟨ie, hie, hkv⟩ := hg.current hS
    obtain ⟨_, t', hwalk, hentered, -, hS'⟩ | ⟨e, t', hwalk, hstops, hend⟩ := ends_iff.mp (hg.step hS)
    · obtain ⟨ies, e, hrest, hies⟩ := ih hS'
      refine ⟨ie :: ies, e, .next hie hwalk hrest, ?_⟩
      rw [Event.reached_next hentered (hg.entries hS)]
      simpa [EntriesOf, hkv] using hies
    · refine ⟨[ie], e, .last hie hwalk hstops, ?_⟩
      rw [Event.reached_refused (hend.resolve_right (by simp))]
      simp [EntriesOf, hkv]

section Directions

variable {m : ContainerModel σ} {H : ℕ} {fails : Prop} {lost : ℕ → Option ErrorCode} {n : TNode (H + 1)}
  {X l r : List KeyValue} {kv : KeyValue}

theorem Rests.currentIe_ok {X : List ℕ} (hc : Rests m t n X l kv r) :
    ∃ ie : IndexEntry, Tree.currentIe t = .ok ie t ∧ (ie.key, ie.value) = kv := by
  have hends : Ends Tree.currentIe t (fun ie t' => (ie.key, ie.value) = kv) fun _ _ => False :=
    hc.currentIe fun ie hkey hvalue _ => by rw [hkey, hvalue]
  obtain ⟨ie, t', hie, hkv⟩ | ⟨_, _, _, h⟩ := ends_iff.mp hends
  · obtain rfl : t' = t := currentIe_keeps.of_ok hie
    exact ⟨ie, hie, hkv⟩
  · exact h.elim

/-- Forwards. -/
theorem guided_next (hl : LawfulEnv env m fails) (hcodes : CodesOnly lost) (hH : H + 1 ≤ treeMaxDepth)
    (ok : ℕ → ℕ → Bool) : Guided (damaged env lost) {} ok fun t L T =>
      ∃ l kv r, L = kv :: r ∧ Rests m t n [] l kv r ∧ T = Event.after (l.length + 1) (n.trail false) ∧
        enterable H lost t = ok where
  current := by
    rintro t kv L T ⟨l, kv', r, hL, hrests, -⟩
    cases hL
    exact hrests.currentIe_ok
  entries := by
    rintro t kv L T ⟨l, kv', r, hL, hrests, rfl, -⟩
    cases hL
    rw [Event.entries_after, entries_trail, ordered, if_neg (by simp), hrests.elems]
    simp
  step := by
    rintro t kv L T ⟨l, kv', r, hL, hrests, rfl, rfl⟩
    cases hL
    refine ((walkTree_next_damaged hl hcodes hH hrests).and (walkTree_readable t)).mono (fun _ t' hpost => ?_)
      fun e t' hpost => ?_
    · obtain ⟨⟨hentered, kv', r', rfl, hrests'⟩, hread⟩ := hpost
      refine ⟨hentered, by simp, l ++ [kv], kv', r', rfl, hrests', ?_, enterable_congr hread⟩
      rw [Event.after_after, List.length_append]
      rfl
    · obtain ⟨⟨hstops, hend⟩, -⟩ := hpost
      exact ⟨hstops, hend.imp_right And.right⟩

/-- Backwards. -/
theorem guided_prev (hl : LawfulEnv env m fails) (hcodes : CodesOnly lost) (hH : H + 1 ≤ treeMaxDepth)
    (ok : ℕ → ℕ → Bool) : Guided (damaged env lost) { getPrev := true } ok fun t L T =>
      ∃ l kv r, L = kv :: l.reverse ∧ Rests m t n [] l kv r ∧ T = Event.after (r.length + 1) (n.trail true) ∧
        enterable H lost t = ok where
  current := by
    rintro t kv L T ⟨l, kv', r, hL, hrests, -⟩
    cases hL
    exact hrests.currentIe_ok
  entries := by
    rintro t kv L T ⟨l, kv', r, hL, hrests, rfl, -⟩
    cases hL
    have hsplit : (l ++ kv :: r).reverse = (r.reverse ++ [kv]) ++ l.reverse := by simp
    rw [Event.entries_after, entries_trail, ordered, if_pos rfl, hrests.elems, hsplit]
    exact List.drop_left' (by simp)
  step := by
    rintro t kv L T ⟨l, kv', r, hL, hrests, rfl, rfl⟩
    cases hL
    refine ((walkTree_prev_damaged hl hcodes hH hrests).and (walkTree_readable t)).mono (fun _ t' hpost => ?_)
      fun e t' hpost => ?_
    · obtain ⟨⟨hentered, l', kv', rfl, hrests'⟩, hread⟩ := hpost
      refine ⟨hentered, by simp, l', kv', kv :: r, by simp, hrests', ?_, enterable_congr hread⟩
      rw [Event.after_after, List.length_cons]
    · obtain ⟨⟨hstops, hend⟩, -⟩ := hpost
      exact ⟨hstops, hend.imp_right fun h => by simp [h.2]⟩

theorem entries_way (reverse : Bool) (n : TNode (H + 1)) : Event.entries (way reverse n) = ordered reverse n.elems := by
  rw [← entries_trail]
  rfl

/-- Behind the first entry. -/
theorem after_way (reverse : Bool) (n : TNode (H + 1)) :
    Event.after 1 (way reverse n) = Event.after 1 (n.trail reverse) := by
  unfold way Node.trail
  simp [Event.after]

/-- A walk that starts finds the entries before the first block that it cannot enter. -/
theorem wholeWalk_of_start {reverse : Bool} {Q : ObjectTree σ → Prop}
    (hstart : Starts env lost reverse n { getFirst := !reverse, getLast := reverse } t Q)
    (hguided : H + 1 ≤ treeMaxDepth → Guided (damaged env lost) { getPrev := reverse } (enterable H lost t) S)
    (hQ : ∀ t', Q t' → readable lost t' = readable lost t →
      ∃ kv L, ordered reverse n.elems = kv :: L ∧ S t' (kv :: L) (Event.after 1 (way reverse n))) :
    ∃ ies e, WholeWalk (damaged env lost) reverse false t ies e ∧
      EntriesOf ies (Event.reached (enterable H lost t) (way reverse n)) := by
  obtain ⟨_, t', hwalk, ⟨hentered, hH, hpos⟩, hread⟩ | ⟨e, t', hwalk, ⟨hstops, hend⟩, -⟩ :=
    ends_iff.mp (Ends.and hstart (walkTree_readable t))
  · obtain ⟨kv, L, helems, hS⟩ := hQ t' hpos hread
    obtain ⟨ies, e, hwalks, hies⟩ := (hguided hH).walks hS
    refine ⟨ies, e, .inr ⟨t', hwalk, hwalks⟩, ?_⟩
    rwa [Event.reached_next hentered (by rw [entries_way, helems])]
  · refine ⟨[], e, .inl ⟨rfl, hstops, t', hwalk⟩, ?_⟩
    obtain hrefused | ⟨-, hempty⟩ := hend
    · rw [Event.reached_refused hrefused]
      rfl
    · rw [Event.reached_end (by rw [entries_way, hempty]; cases reverse <;> rfl)]
      rfl

/-- A whole walk finds the entries before the first block that it cannot enter. -/
theorem exists_wholeWalk (hl : LawfulEnv env m fails) (hcodes : CodesOnly lost) (ht : HoldsTree m t n)
    (reverse : Bool) : ∃ ies e, WholeWalk (damaged env lost) reverse false t ies e ∧
      EntriesOf ies (Event.reached (enterable H lost t) (way reverse n)) := by
  cases reverse with
  | false =>
    refine wholeWalk_of_start (walkTree_first_damaged hl hcodes ht) (fun hH => guided_next (n := n) hl hcodes hH _)
      fun t' hpos hread => ?_
    obtain ⟨kv, r, helems, hrests⟩ := hpos
    exact ⟨kv, r, helems, [], kv, r, rfl, hrests, after_way false n, enterable_congr hread⟩
  | true =>
    refine wholeWalk_of_start (walkTree_last_damaged hl hcodes ht) (fun hH => guided_prev (n := n) hl hcodes hH _)
      fun t' hpos hread => ?_
    obtain ⟨l, kv, helems, hrests⟩ := hpos
    exact ⟨kv, l.reverse, by simp [ordered, helems], l, kv, [], rfl, hrests, after_way true n, enterable_congr hread⟩

end Directions

/-! ## Truncated walks -/

/-- `index_walk_all` succeeds only if it called back on all entries without an error and every block could be
entered. -/
def Reports (env : TreeEnv σ) {H : ℕ} (n : TNode (H + 1)) (ok : ℕ → ℕ → Bool) (reverse : Bool)
    (cb : IndexEntry → EStateM ErrorCode π Unit) (fuel : ℕ) (t : ObjectTree σ) (p : π) : Prop :=
  Ends (indexWalkAll env reverse false cb fuel) (t, p)
    (fun _ s => (∃ ies, EntriesOf ies (ordered reverse n.elems) ∧ callAll cb ies p = .ok () s.2) ∧
      ∀ e ∈ way reverse n, e.within ok = true)
    (fun _ _ => True)

/-- Whatever the blocks hold, the code that ends the walk comes out exactly if it is `-INDEX_ERR_ROOT` or hidden
behind a code of the callback. In a tree some of whose blocks cannot be read, or lie too deep, `index_walk_all`
reports the truncated walk exactly if nothing is missing, or the callback fails on an entry before the first block
that is. -/
theorem walk_all_exact {σ π : Type} {env : TreeEnv σ} {t : ObjectTree σ} (reverse : Bool) :
    (∀ {removeBlock : Bool} {ies : List IndexEntry} {e : ErrorCode}, WholeWalk env reverse removeBlock t ies e →
      ∀ (cb : IndexEntry → EStateM ErrorCode π Unit) (p : π) (fuel : ℕ), ies.length ≤ fuel →
        ((e ≠ .root → ∃ e' s, indexWalkAll env reverse removeBlock cb fuel (t, p) = .error e' s) ↔
          e = .root ∨ ∃ e' p', callAll cb ies p = .error e' p')) ∧
    ∀ {m : ContainerModel σ} {fails : Prop} {lost : ℕ → Option ErrorCode} {H : ℕ} {n : TNode (H + 1)},
      LawfulEnv env m fails → CodesOnly lost → HoldsTree m t n →
      ∃ ies, EntriesOf ies (Event.reached (enterable H lost t) (way reverse n)) ∧
        ∀ (cb : IndexEntry → EStateM ErrorCode π Unit) (p : π) (fuel : ℕ), n.elems.length ≤ fuel →
          (Reports (damaged env lost) n (enterable H lost t) reverse cb fuel t p ↔
            (∀ e ∈ way reverse n, e.within (enterable H lost t) = true) ∨
              ∃ e p', callAll cb ies p = .error e p') := by
  refine ⟨fun hw cb p fuel hfuel => ?_, fun {m fails lost H n} hl hcodes ht => ?_⟩
  · obtain ⟨_, s, hok, hcall⟩ | ⟨e', s, herr, hcall⟩ := ends_iff.mp (indexWalkAll_of_walk hw cb (p := p) hfuel)
    · simp [hok, hcall]
    · simp [herr, hcall]
  · obtain ⟨ies, e, hw, hies⟩ := exists_wholeWalk hl hcodes ht reverse
    refine ⟨ies, hies, fun cb p fuel hfuel => ?_⟩
    have hlen : ies.length ≤ fuel := by
      have hreach := (Event.reached_prefix (enterable H lost t) (way reverse n)).length_le
      rw [entries_way, ← hies, List.length_map] at hreach
      have hordered : (ordered reverse n.elems).length = n.elems.length := by
        cases reverse <;> simp [ordered]
      omega
    unfold Reports
    obtain ⟨_, s, hok, hcall⟩ | ⟨e', s, herr, hcall⟩ := ends_iff.mp (indexWalkAll_of_walk hw cb (p := p) hlen)
    · rw [ends_of_ok hok]
      refine ⟨fun h => .inl h.2, fun h => ?_⟩
      obtain hall | ⟨e, p', hfail⟩ := h
      · rw [Event.reached_all hall, entries_way] at hies
        exact ⟨⟨ies, hies, hcall⟩, hall⟩
      · rw [hcall] at hfail
        cases hfail
    · rw [ends_of_error herr]
      exact ⟨fun _ => .inr ⟨e', s.2, hcall⟩, fun _ => trivial⟩

/-! ## A leaf that cannot be read -/

/-- A container that holds the blocks of a tree and has read none of them. -/
def diskEnv {h : ℕ} (n : TNode h) (cr : CollateRule) : TreeEnv ℕ :=
  { countingEnv cr with
    readBlock := fun v =>
      match imageAt n v with
      | some ib => pure { state := .clean, flush := false, ib := some ib }
      | none => throw .disk }

def diskModel {h : ℕ} (n : TNode h) : ContainerModel ℕ := { countingModel with stored := fun _ v => imageAt n v }

theorem diskEnv_lawful {h : ℕ} (n : TNode h) (cr : CollateRule) : LawfulEnv (diskEnv n cr) (diskModel n) False where
  alloc c hc := by
    refine ⟨Nat.pos_iff_ne_zero.mp hc, Nat.lt_irrefl c, Nat.lt_succ_self c, Nat.succ_pos c, fun v hv => ?_⟩
    exact ⟨Nat.lt_succ_of_lt hv, rfl⟩
  free c v hc _ := ⟨hc, fun w hw => ⟨hw.1, rfl⟩⟩
  allocCache c hc := ⟨hc, fun w hw => ⟨hw, rfl⟩⟩
  read c v ib hc _ h := by
    have himage : imageAt n v = some ib := h
    unfold diskEnv
    simp only [himage]
    exact ⟨rfl, hc, fun w hw => ⟨hw, rfl⟩⟩

/-- The object with that tree, just opened. -/
def diskState {H : ℕ} (n : TNode (H + 1)) : ObjectTree ℕ := { memoryState n with caches := fun _ => none }

theorem diskState_holds {H : ℕ} {n : TNode (H + 1)} (hn : n.labels.Nodup) (h0 : 0 ∉ n.labels) :
    HoldsTree (diskModel n) (diskState n) n := by
  have hheld := forall_imageAt hn
  exact ⟨Nat.succ_pos _, rfl, rfl, hheld.2.1, hheld.2.2, hn, (memoryState_holds hn h0).owned.used⟩

/-- Two leaves with one entry each, and an entry between them. -/
def forkTree : TNode 2 :=
  Node.block 1 (Node.block 2 Node.nil [(([1], [10]), Node.nil)])
    [(([2], [20]), Node.block 3 Node.nil [(([3], [30]), Node.nil)])]

/-- The second leaf cannot be read. -/
def secondLost (v : ℕ) : Option ErrorCode := if v = 3 then some .disk else none

/-- Visiting the tree with a leaf that cannot be read. -/
theorem walk_all_exact_fork : ∃ ies : List IndexEntry, EntriesOf ies [([1], [10]), ([2], [20])] ∧
    (Reports (damaged (diskEnv forkTree .binary) secondLost) forkTree (enterable 1 secondLost (diskState forkTree))
        false (fun ie => modify fun l => l ++ [ie.key]) 3 (diskState forkTree) [] ↔
      (∀ e ∈ way false forkTree, e.within (enterable 1 secondLost (diskState forkTree)) = true) ∨
        ∃ e p', callAll (fun ie => modify fun l => l ++ [ie.key]) ies [] = .error e p') := by
  have hcodes : CodesOnly secondLost := fun v e h => by
    unfold secondLost at h
    split_ifs at h
    cases h
    rfl
  obtain ⟨ies, hies, h⟩ := (walk_all_exact false).2 (diskEnv_lawful forkTree .binary) hcodes
    (diskState_holds (by decide) (by decide))
  exact ⟨ies, hies, h _ _ 3 (by decide)⟩

/-- The disk of the tree; the bytes that it returns for a block that is refused are those of another leaf. -/
def staleEnv : TreeEnv ℕ :=
  { diskEnv forkTree .binary with
    refused := fun v _ => imageAt (Node.block 3 Node.nil [(([9], [90]), Node.nil)] : TNode 1) v }

/-- The object after a walk that broke off at the second leaf. -/
def strandedState : ObjectTree ℕ :=
  { diskState forkTree with
    caches := Function.update (Function.update (fun _ => none) 2 (some ⟨.clean, false, imageAt forkTree 2⟩)) 3
      (some ⟨.empty, false, staleEnv.refused 3 7⟩)
    maxDepth := 1
    stack := [⟨.root, 52⟩] }

/-- The walk calls back on two of three entries and returns zero. It leaves an `EMPTY` cache: the next walk
enters the block, calls back on an entry that is not in the tree, and returns zero too. -/
theorem walk_all_unreadable :
    indexWalkAll (damaged staleEnv secondLost) false false (fun ie => modify fun l => l ++ [ie.key]) 3
        (diskState forkTree, []) = .ok () (strandedState, [[1], [2]]) ∧
      Ends (indexWalkAll (damaged staleEnv secondLost) false false (fun ie => modify fun l => l ++ [ie.key]) 3)
        (strandedState, []) (fun _ s => s.2 = [[1], [2], [9]]) (fun _ _ => False) ∧
      ¬ Reports (damaged staleEnv secondLost) forkTree (enterable 1 secondLost (diskState forkTree)) false
        (fun ie => modify fun l => l ++ [ie.key]) 3 (diskState forkTree) [] := by
  have hrun : indexWalkAll (damaged staleEnv secondLost) false false (fun ie => modify fun l => l ++ [ie.key]) 3
      (diskState forkTree, []) = .ok () (strandedState, [[1], [2]]) := rfl
  refine ⟨hrun, rfl, fun hreports => ?_⟩
  have hleaf : Event.enter 0 3 ∈ way false forkTree := .tail _ (.tail _ (.tail _ (.head _)))
  exact absurd (((ends_of_ok hrun).mp hreports).2 _ hleaf) (by decide)

end IndexFs.Tree
