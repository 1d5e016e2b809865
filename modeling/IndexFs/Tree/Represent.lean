import IndexFs.Tree.Edit
import IndexFs.Tree.Layout

/-!
# Trees in the state of an object

`Rep m t p c extra` says that the state `t` of an object holds the tree `p.fill c`
with the cursor on the entry that points to `c`: the stack is the path `p`, each
block is the image of its entries, and the numbers of all blocks, with the numbers
`extra` of blocks outside the tree, are distinct, nonzero and in use.

The container is described by a `ContainerModel`, and `LawfulEnv` says what the
calls on it do: an allocation returns a number that is not in use, and the blocks
in use keep their content. `fails` tells whether an allocation or a free may fail;
blocks in use can be read.

For each step of the cursor there is a lemma that says where it ends.
-/

namespace IndexFs.Tree

open IndexFs.Multiway

variable {σ : Type}

/-- A tree of index blocks: block numbers and entries. -/
abbrev TNode := Node ℕ KeyValue

/-- A position in a tree of index blocks. -/
abbrev TPath := Path ℕ KeyValue

/-! ## The container -/

/-- What a container holds, as far as its trees depend on it. -/
structure ContainerModel (σ : Type) where
  /-- the states the container can be in -/
  Inv : σ → Prop
  /-- the blocks that are in use -/
  used : σ → Set ℕ
  /-- the index block that `index_block_read2` finds for a block number -/
  stored : σ → ℕ → Option IndexBlock

/-- The blocks in `s` stay in use and keep their content. -/
def ContainerModel.Keeps (m : ContainerModel σ) (s : Set ℕ) (c c' : σ) : Prop :=
  m.Inv c' ∧ ∀ v ∈ s, v ∈ m.used c' ∧ m.stored c' v = m.stored c v

/-- What the calls into the container do. -/
structure LawfulEnv (env : TreeEnv σ) (m : ContainerModel σ) (fails : Prop) : Prop where
  alloc : ∀ c, m.Inv c → Ends env.allocBlock c
    (fun v c' => v ≠ 0 ∧ v ∉ m.used c ∧ v ∈ m.used c' ∧ m.Keeps (m.used c) c c')
    (fun e c' => fails ∧ e.stops = false ∧ m.Keeps (m.used c) c c')
  free : ∀ c v, m.Inv c → v ∈ m.used c → Ends (env.freeBlock v) c
    (fun _ c' => m.Keeps (m.used c \ {v}) c c')
    (fun e c' => fails ∧ e.stops = false ∧ m.Keeps (m.used c) c c')
  allocCache : ∀ c, m.Inv c → Ends env.allocCache c
    (fun _ c' => m.Keeps (m.used c) c c')
    (fun e c' => fails ∧ e.stops = false ∧ m.Keeps (m.used c) c c')
  read : ∀ c v ib, m.Inv c → v ∈ m.used c → m.stored c v = some ib → Ends (env.readBlock v) c
    (fun bc c' => bc.ib = some ib ∧ m.Keeps (m.used c) c c')
    (fun _ _ => False)

variable (m : ContainerModel σ)

/-! ## Blocks in a state -/

/-- The index block with the number `v`: the cached one, else the stored one. -/
def blockAt (t : ObjectTree σ) (v : ℕ) : Option IndexBlock :=
  match t.caches v with
  | some c => c.ib
  | none => m.stored t.ct v

/-- The index block of a cache. -/
def ibIn (t : ObjectTree σ) : CacheRef → Option IndexBlock
  | .root => some t.rootIb
  | .block v => (t.caches v).bind BlockCache.ib

theorem ibIn_block (t : ObjectTree σ) (v : ℕ) :
    ibIn t (.block v) = (t.caches v).bind BlockCache.ib := rfl

/-- A cached block is the block with its number. -/
theorem blockAt_of_ibIn {t : ObjectTree σ} {v : ℕ} {ib : IndexBlock} (h : ibIn t (.block v) = some ib) :
    blockAt m t v = some ib := by
  rw [ibIn_block] at h
  unfold blockAt
  cases hc : t.caches v with
  | none => simp [hc] at h
  | some bc => simpa [hc] using h

/-- Blocks of positive height have children. -/
def isLarge (h : ℕ) : Bool := h != 0

theorem isLarge_succ (h : ℕ) : isLarge (h + 1) = true := rfl

/-- The number by which an entry names its child. -/
def num : {h : ℕ} → TNode h → ℕ
  | 0, _ => 0
  | _ + 1, n => n.root.label

def flatBefore {h : ℕ} (before : List (TNode h × KeyValue)) : List (ℕ × KeyValue) :=
  before.map fun x => (num x.1, x.2)

def flatAfter {h : ℕ} (after : List (KeyValue × TNode h)) : List (KeyValue × ℕ) :=
  after.map fun x => (x.1, num x.2)

/-- The image of a block whose children are trees. -/
def blockImage (h alloc : ℕ) (b : Block ℕ KeyValue (TNode h)) : IndexBlock :=
  image alloc (isLarge h) [] (num b.first) (flatAfter b.rest)

/-- All blocks of a tree below the root are there. -/
def Held (t : ObjectTree σ) {h : ℕ} (n : TNode h) : Prop :=
  n.Forall fun h b => blockAt m t b.label = some (blockImage h blockSize b)

/-- The cache of the block with the number `i` below the path `up`. -/
def refOf {H h : ℕ} (up : TPath H h) (i : ℕ) : CacheRef :=
  match up with
  | .top => .root
  | .down .. => .block i

/-- The size of that block. -/
def allocOf {H h : ℕ} (up : TPath H h) : ℕ :=
  match up with
  | .top => attrRecordContentSize
  | .down .. => blockSize

/-- The position of the cursor behind `before`. -/
def cursorAt {h : ℕ} (before : List (TNode h × KeyValue)) : ℕ :=
  posOf (isLarge h) (flatBefore before)

/-- The stack of a cursor. -/
def frames {H : ℕ} : {h : ℕ} → TPath H h → List Frame
  | _, .top => []
  | _, .down i before _ up => ⟨refOf up i, cursorAt before⟩ :: frames up

/-- The blocks of a path and beside it are there; `v` is the number in the hole. -/
def HoldsPath (t : ObjectTree σ) {H : ℕ} : {h : ℕ} → TPath H h → ℕ → Prop
  | _, .top, v => t.rootVbn = v
  | h, .down i before after up, v =>
    ibIn t (refOf up i) =
      some (image (allocOf up) (isLarge h) (flatBefore before) v (flatAfter after)) ∧
    (∀ x ∈ before, Held m t x.1) ∧ (∀ x ∈ after, Held m t x.2) ∧ HoldsPath t up i

/-- The blocks with the numbers `l` are distinct and in use. -/
structure Owned (t : ObjectTree σ) (l : List ℕ) : Prop where
  nodup : l.Nodup
  used : ∀ v ∈ l, v ∈ m.used t.ct ∧ v ≠ 0

/-- The state holds the tree `p.fill c` with the cursor at `c`, and owns the blocks
`extra` besides. -/
structure Rep (t : ObjectTree σ) {H h : ℕ} (p : TPath H h) (c : TNode h) (extra : List ℕ) :
    Prop where
  inv : m.Inv t.ct
  stack : t.stack = frames p
  path : HoldsPath m t p (num c)
  child : Held m t c
  owned : Owned m t (p.spine ++ p.side ++ c.labels ++ extra)

/-! ## Numbers and images -/

@[simp] theorem num_block {h : ℕ} (i : ℕ) (c : TNode h) (rest : List (KeyValue × TNode h)) :
    num (Node.block i c rest) = i := rfl

@[simp] theorem num_plug {h : ℕ} (i : ℕ) (before : List (TNode h × KeyValue)) (c : TNode h)
    (after : List (KeyValue × TNode h)) : num (Node.plug i before c after) = i := rfl

@[simp] theorem flatBefore_nil {h : ℕ} : flatBefore ([] : List (TNode h × KeyValue)) = [] := rfl

@[simp] theorem flatBefore_append {h : ℕ} (l r : List (TNode h × KeyValue)) :
    flatBefore (l ++ r) = flatBefore l ++ flatBefore r := List.map_append

@[simp] theorem flatBefore_cons {h : ℕ} (x : TNode h × KeyValue) (l : List (TNode h × KeyValue)) :
    flatBefore (x :: l) = (num x.1, x.2) :: flatBefore l := rfl

@[simp] theorem flatAfter_nil {h : ℕ} : flatAfter ([] : List (KeyValue × TNode h)) = [] := rfl

@[simp] theorem flatAfter_cons {h : ℕ} (x : KeyValue × TNode h) (l : List (KeyValue × TNode h)) :
    flatAfter (x :: l) = (x.1, num x.2) :: flatAfter l := rfl

/-- The image of a plugged block is the image cut at the child. -/
theorem blockImage_chain {h alloc i : ℕ} (before : List (TNode h × KeyValue)) (c : TNode h)
    (after : List (KeyValue × TNode h)) :
    blockImage h alloc ⟨i, (chain before c after).1, (chain before c after).2⟩ =
      image alloc (isLarge h) (flatBefore before) (num c) (flatAfter after) := by
  unfold blockImage
  rw [image_chain alloc (isLarge h) (flatBefore before)]
  unfold flatBefore flatAfter
  rw [chain_map]

theorem frames_length {H h : ℕ} (p : TPath H h) : (frames p).length = p.spine.length := by
  induction p with
  | top => rfl
  | down i before after up ih => simp [frames, Path.spine, ih]

theorem refOf_relabel {H h : ℕ} (up : TPath H h) (l : List ℕ) (i : ℕ) :
    refOf (up.relabel l) i = refOf up i := by
  cases up <;> cases l <;> rfl

theorem allocOf_relabel {H h : ℕ} (up : TPath H h) (l : List ℕ) :
    allocOf (up.relabel l) = allocOf up := by
  cases up <;> cases l <;> rfl

/-! ## What a state change leaves alone -/

section Congr

variable {m} {t t' : ObjectTree σ}

/-- The blocks with the numbers `l` are cached and stored as before. -/
def SameOn (m : ContainerModel σ) (t t' : ObjectTree σ) (l : List ℕ) : Prop :=
  ∀ v ∈ l, t'.caches v = t.caches v ∧ m.stored t'.ct v = m.stored t.ct v

theorem SameOn.mono {l l' : List ℕ} (h : SameOn m t t' l) (hl : ∀ v ∈ l', v ∈ l) :
    SameOn m t t' l' := fun v hv => h v (hl v hv)

theorem SameOn.blockAt {l : List ℕ} {v : ℕ} (h : SameOn m t t' l) (hv : v ∈ l) :
    blockAt m t' v = blockAt m t v := by
  unfold Tree.blockAt
  rw [(h v hv).1, (h v hv).2]

theorem Held.congr {h : ℕ} {n : TNode h} (hn : Held m t n) (hs : SameOn m t t' n.labels) :
    Held m t' n :=
  Node.Forall.imp_labels hn fun _ _ hb hP => (hs.blockAt hb).trans hP

theorem HoldsPath.congr {H h : ℕ} {p : TPath H h} {v : ℕ} (hp : HoldsPath m t p v)
    (hs : SameOn m t t' (p.spine ++ p.side)) (hroot : t'.rootIb = t.rootIb)
    (hvbn : t'.rootVbn = t.rootVbn) : HoldsPath m t' p v := by
  induction p generalizing v with
  | top => exact hvbn.trans hp
  | @down h i before after up ih =>
    obtain ⟨hib, hbefore, hafter, hup⟩ := hp
    simp only [Path.spine, Path.side] at hs
    refine ⟨?_, fun x hx => ?_, fun x hx => ?_, ih hup (hs.mono fun v hv => ?_)⟩
    · cases up with
      | top => exact (congrArg some hroot).trans hib
      | down j b a up =>
        change (t'.caches i).bind BlockCache.ib = _
        rw [(hs i (by simp)).1]
        exact hib
    · refine (hbefore x hx).congr (hs.mono fun v hv => ?_)
      have : v ∈ Node.labelsBefore before := List.mem_flatMap.mpr ⟨x, hx, hv⟩
      simp [this]
    · refine (hafter x hx).congr (hs.mono fun v hv => ?_)
      have : v ∈ Node.labelsAfter after := List.mem_flatMap.mpr ⟨x, hx, hv⟩
      simp [this]
    · simp only [List.mem_append] at hv
      simp only [List.mem_cons, List.mem_append]
      tauto

theorem Owned.perm {l l' : List ℕ} (h : Owned m t l) (hl : l.Perm l') : Owned m t l' where
  nodup := hl.nodup_iff.mp h.nodup
  used v hv := h.used v (hl.mem_iff.mpr hv)

theorem Owned.sublist {l l' : List ℕ} (h : Owned m t l) (hl : l'.Sublist l) : Owned m t l' where
  nodup := hl.nodup h.nodup
  used v hv := h.used v (hl.subset hv)

/-- Ownership after a change that keeps the owned blocks in use. -/
theorem Owned.congr {l : List ℕ} (h : Owned m t l) (hk : ∀ v ∈ l, v ∈ m.used t'.ct) : Owned m t' l where
  nodup := h.nodup
  used v hv := ⟨hk v hv, (h.used v hv).2⟩

end Congr

/-! ## Reading the state -/

section Read

variable {m} {t : ObjectTree σ} {F : ErrorCode → ObjectTree σ → Prop}

theorem ends_top {f : Frame} {fs : List Frame} (h : t.stack = f :: fs)
    {Q : Frame → ObjectTree σ → Prop} : Ends (top : TreeM σ Frame) t Q F ↔ Q f t := by
  unfold top
  rw [ends_bind, ends_get, h]
  rfl

theorem ends_getIb {ref : CacheRef} {ib : IndexBlock} (h : ibIn t ref = some ib)
    {Q : IndexBlock → ObjectTree σ → Prop} : Ends (getIb ref : TreeM σ IndexBlock) t Q F ↔ Q ib t := by
  cases ref with
  | root =>
    obtain rfl : t.rootIb = ib := by simpa [ibIn] using h
    rfl
  | block v =>
    unfold getIb
    rw [ends_bind, ends_get]
    unfold ibIn at h
    cases hc : t.caches v with
    | none => simp [hc] at h
    | some bc =>
      obtain ⟨state, flush, ib'⟩ := bc
      obtain rfl : ib' = some ib := by simpa [hc] using h
      rw [ends_pure]

theorem Rep.topIb {H h : ℕ} {i : ℕ} {before : List (TNode h × KeyValue)}
    {after : List (KeyValue × TNode h)} {up : TPath H (h + 1)} {c : TNode h} {X : List ℕ}
    (hr : Rep m t (.down i before after up) c X) : ibIn t (refOf up i) =
      some (image (allocOf up) (isLarge h) (flatBefore before) (num c) (flatAfter after)) :=
  hr.path.1

/-- The entry under the cursor. -/
def curIe {h : ℕ} (before : List (TNode h × KeyValue)) (c : TNode h)
    (after : List (KeyValue × TNode h)) : IndexEntry :=
  headIe (isLarge h) (lastLen (isLarge h) entrySize (flatBefore before)) (num c) (flatAfter after)

theorem ends_currentIe {H h : ℕ} {i : ℕ} {before : List (TNode h × KeyValue)}
    {after : List (KeyValue × TNode h)} {up : TPath H (h + 1)} {c : TNode h} {X : List ℕ}
    (hr : Rep m t (.down i before after up) c X) {Q : IndexEntry → ObjectTree σ → Prop} :
    Ends (currentIe : TreeM σ IndexEntry) t Q F ↔ Q (curIe before c after) t := by
  unfold currentIe
  rw [ends_bind, ends_top hr.stack, ends_bind, ends_getIb hr.topIb]
  dsimp only
  rw [cursorAt, getIe_image]
  rfl

@[simp] theorem curIe_isEnd {h : ℕ} (before : List (TNode h × KeyValue)) (c : TNode h)
    (after : List (KeyValue × TNode h)) : (curIe before c after).isEnd = after.isEmpty := by
  cases after <;> rfl

@[simp] theorem curIe_isBegin {h : ℕ} (before : List (TNode h × KeyValue)) (c : TNode h)
    (after : List (KeyValue × TNode h)) : (curIe before c after).isBegin = false := by
  cases after <;> rfl

@[simp] theorem curIe_isNode {h : ℕ} (before : List (TNode h × KeyValue)) (c : TNode h)
    (after : List (KeyValue × TNode h)) : (curIe before c after).isNode = isLarge h := by
  cases after <;> rfl

@[simp] theorem curIe_vbn {h : ℕ} (before : List (TNode (h + 1) × KeyValue)) (c : TNode (h + 1))
    (after : List (KeyValue × TNode (h + 1))) : (curIe before c after).vbn = num c := by
  cases after <;> rfl

@[simp] theorem curIe_prevLen {h : ℕ} (before : List (TNode h × KeyValue)) (c : TNode h)
    (after : List (KeyValue × TNode h)) :
    (curIe before c after).prevLen = lastLen (isLarge h) entrySize (flatBefore before) := by
  cases after <;> rfl

theorem curIe_cons {h : ℕ} (before : List (TNode h × KeyValue)) (c c' : TNode h) (kv : KeyValue)
    (after : List (KeyValue × TNode h)) : curIe before c ((kv, c') :: after) =
      mkIe (isLarge h) (lastLen (isLarge h) entrySize (flatBefore before)) (num c) kv := rfl

end Read

end IndexFs.Tree
