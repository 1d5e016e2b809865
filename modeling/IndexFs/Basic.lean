import IndexFs.Lib.Outcome

/-!
# Shared vocabulary

Error codes and layout constants of `include/ofs_globals.h`,
`include/ofs_block.h`, `include/ofs_layout.h` and `include/ofs_tree.h`.

A C function that returns `0` or a negative code is modelled in
`EStateM ErrorCode σ`; `-INDEX_ERR_XYZ` is `throw .xyz`. Three constructors stand
for behaviour that has no return code: `assertion` for a failing `ASSERT`
(`assert` aborts the process), `memory` for an access outside the bytes of a
live block, and `fuel` for a loop that is still running after the number of
steps its model allows.
-/

namespace IndexFs

/-- The error codes the modelled functions return (`ofs_globals.h`, `ofs_block.h`). -/
inductive ErrorCode
  | objExist
  | parameter
  | allocateMemory
  | manyTimesPut
  | noFreeBlocks
  | update
  | maxDepth
  | root
  | endEntry
  | nextEntry
  | collate
  | keyNotFound
  | keyExist
  | insertEntry
  | addVbn
  | delVbn
  | chaos
  | reparent
  | format
  | objIdInvalid
  /-- `FILE_BLOCK_ERR_INVALID_OBJECT` -/
  | invalidObject
  /-- `BLOCK_ERR_WRITE` -/
  | write
  /-- `BLOCK_ERR_PARAMETER` -/
  | blockParameter
  /-- a negative code of the disk layer -/
  | disk
  /-- a failing `ASSERT` -/
  | assertion
  /-- an access outside the bytes of a live block -/
  | memory
  /-- the bound on the steps of a modelled loop ran out -/
  | fuel
  deriving DecidableEq, Repr

/-- A call that ends so does not come back to its caller. -/
def ErrorCode.stops : ErrorCode → Bool
  | .assertion | .memory | .fuel => true
  | _ => false

/-- The return code of `x`, for a caller that looks at it. -/
def codeOf {σ α : Type} (x : EStateM ErrorCode σ α) : EStateM ErrorCode σ (Except ErrorCode α) := do
  match ← attempt x with
  | .ok a => return .ok a
  | .error e => if e.stops then throw e else return .error e

theorem ends_codeOf {σ α : Type} {x : EStateM ErrorCode σ α} {s : σ} {Q : Except ErrorCode α → σ → Prop}
    {F : ErrorCode → σ → Prop} :
    Ends (codeOf x) s Q F ↔ Ends x s (fun a s' => Q (.ok a) s')
      (fun e s' => if e.stops then F e s' else Q (.error e) s') := by
  unfold codeOf
  rw [ends_bind, ends_attempt]
  unfold Ends
  cases x s with
  | ok a s' => rfl
  | error e s' => cases he : e.stops <;> simp [he, pure, EStateM.pure, throw, throwThe, MonadExceptOf.throw, EStateM.throw]

/-- A caller that drops the code of a part which has no code to return. -/
theorem Projects.dropCode {α β σ τ : Type} {view : σ → τ} {x : EStateM ErrorCode σ α} {y : EStateM ErrorCode τ α}
    {f : EStateM ErrorCode σ β} {g : EStateM ErrorCode τ β} (hx : Projects view x y)
    (hstops : ∀ t, Ends y t (fun _ _ => True) fun e _ => e.stops = true) (hf : Projects view f g) :
    Projects view (codeOf x >>= fun _ => f) (y >>= fun _ => g) := by
  intro s
  rw [ends_bind, ends_codeOf]
  refine (hx s).mono (fun a s₁ h₁ => ?_) fun e s₁ h₁ => ?_
  · refine (hf s₁).mono (fun b s₂ h₂ => ?_) fun e s₂ h₂ => ?_
    · exact bind_eq_ok.mpr ⟨a, _, h₁, h₂⟩
    · simp only [Bind.bind, EStateM.bind, h₁, h₂]
  · rw [if_pos ((ends_of_error h₁).mp (hstops _))]
    simp only [Bind.bind, EStateM.bind, h₁]

/-- A call that can only fail with a return code. -/
theorem Ends.codeOf {σ α : Type} {x : EStateM ErrorCode σ α} {s : σ} {Q : Except ErrorCode α → σ → Prop}
    {F : ErrorCode → σ → Prop}
    (h : Ends x s (fun a s' => Q (.ok a) s') (fun e s' => e.stops = false ∧ Q (.error e) s')) :
    Ends (codeOf x) s Q F :=
  ends_codeOf.mpr (h.mono (fun _ _ h => h) fun _ _ h => by simpa [h.1] using h.2)

theorem Relates.codeOf {σ α : Type} {R : σ → σ → Prop} {x : EStateM ErrorCode σ α} (hx : Relates R x) :
    Relates R (codeOf x) := by
  intro s
  refine ends_codeOf.mpr ((hx s).mono (fun _ _ h => h) fun e s' h => ?_)
  split_ifs <;> exact h

abbrev Bytes := List UInt8

/-- `sizeof(block_head_t)`. -/
def blockHeadSize : ℕ := 16

/-- `sizeof(index_entry_t)`, also `ENTRY_END_SIZE` and `ENTRY_BEGIN_SIZE`. -/
def entrySize : ℕ := 9

/-- `VBN_SIZE`. -/
def vbnSize : ℕ := 8

/-- Offset of `begin_entry` in `index_block_t`. -/
def beginEntryOff : ℕ := 24

/-- `sizeof(index_block_t)`, the offset of the first entry of a block. -/
def indexBlockSize : ℕ := 33

/-- `BLOCK_SIZE`, the only `sb.block_size` that `check_super_block` accepts. -/
def blockSize : ℕ := 4096

/-- `SUPER_BLOCK_SIZE`. -/
def superBlockSize : ℕ := 512

/-- `SUPER_BLOCK_ID`. -/
def superBlockId : ℕ := 0x4B4C4253

/-- `ATTR_RECORD_CONTENT_SIZE`, the room of the root block inside the inode. -/
def attrRecordContentSize : ℕ := 3722

/-- `TREE_MAX_DEPTH`. -/
def treeMaxDepth : ℕ := 16

/-- `KEY_MAX_SIZE`. -/
def keyMaxSize : ℕ := 256

/-- `VALUE_MAX_SIZE`. -/
def valueMaxSize : ℕ := 1024

/-- `index_entry_t`: its header, the key and value that follow it, and the child
block number in the last `VBN_SIZE` bytes of an entry with `INDEX_ENTRY_NODE`.
`key_len` and `value_len` are the lengths of `key` and `value`; the three flag
bits are `isNode`, `isEnd` and `isBegin`. -/
structure IndexEntry where
  len : ℕ
  prevLen : ℕ
  key : Bytes
  value : Bytes
  vbn : ℕ
  isNode : Bool
  isEnd : Bool
  isBegin : Bool
  deriving DecidableEq, Repr

/-- The `flags` argument of `walk_tree` (`ofs_tree.h`, `INDEX_GET_FIRST` and so on). -/
structure WalkFlags where
  getFirst : Bool := false
  getLast : Bool := false
  getPrev : Bool := false
  getCurrent : Bool := false
  getLastEntry : Bool := false
  removeBlock : Bool := false
  deriving DecidableEq, Repr

/-! ## Machine integers -/

/-- Conversion to `uint16_t`. -/
def uint16 (x : ℕ) : ℕ := x % 2 ^ 16

/-- Conversion to `uint32_t`. -/
def uint32 (x : ℕ) : ℕ := x % 2 ^ 32

/-- Conversion to `uint64_t`, the result of every `uint64_t` sum. -/
def uint64 (x : ℕ) : ℕ := x % 2 ^ 64

/-- A `uint64_t` difference. -/
def uint64Sub (x y : ℕ) : ℕ := (x + 2 ^ 64 - y) % 2 ^ 64

/-- Conversion of a `uint32_t` to `int32_t`. -/
def int32 (x : ℕ) : ℤ :=
  if x % 2 ^ 32 < 2 ^ 31 then ((x % 2 ^ 32 : ℕ) : ℤ) else ((x % 2 ^ 32 : ℕ) : ℤ) - 2 ^ 32

/-- `ASSERT(p)`. -/
def assertThat {σ : Type} (p : Prop) [Decidable p] : EStateM ErrorCode σ Unit :=
  if p then pure () else throw .assertion

@[simp] theorem ends_assertThat {σ : Type} {p : Prop} [Decidable p] {s : σ}
    {Q : Unit → σ → Prop} {F : ErrorCode → σ → Prop} :
    Ends (assertThat p) s Q F ↔ (p → Q () s) ∧ (¬p → F .assertion s) := by
  unfold assertThat
  rw [ends_ite, ends_pure, ends_throw]

end IndexFs
