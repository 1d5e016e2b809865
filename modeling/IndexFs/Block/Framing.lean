import IndexFs.Block.TornWrite
import IndexFs.Lib.LittleEndian

/-!
# Block framing, byte by byte

`assemble_block`, `fixup_block`, `verify_block`, `ofs_update_block_fixup` and
`ofs_read_block_fixup` of `object_system/ofs_block_rw.c` (lines 42–166) on the bytes
of a buffer. The last two bytes of a block go to `fixup` and make room for `seq_no`;
in the buffer they are put back at once, in the block on the disk when it is read.

How many bytes of a write the disk takes is a parameter (`os_file_pwrite` returns
what `fwrite` does, or the code of a failing seek). Reads of the disk succeed.

Results:

* `imageOf_assembleBlock`, `imageOf_fixupBlock`: the bytes behind `Block.assembleBlock`
  and `Block.fixupBlock`.
* `framing_round_trip`: a block that was written as a whole is read back as it was.
-/

namespace IndexFs.Framing

open Block (bytesPerSector sectorsPerBlock)

/-- The bytes at the address of a buffer. -/
abbrev Mem := ℤ → UInt8

/-! ## `block_head_t` -/

def blkId (m : Mem) : ℕ := readLe m 0 4

def allocSize (m : Mem) : ℕ := readLe m 4 4

def realSize (m : Mem) : ℕ := readLe m 8 4

def seqNo (m : Mem) : ℕ := readLe m 12 2

def fixup (m : Mem) : ℕ := readLe m 14 2

/-- `(uint8_t *)blk + blk->alloc_size - sizeof(uint16_t)`. -/
def footOff (m : Mem) : ℤ := allocSize m - 2

/-- `*foot`, the last two bytes. -/
def foot (m : Mem) : ℕ := readLe m (footOff m) 2

/-! ## Framing -/

/-- `assemble_block` (lines 42–55). -/
def assembleBlock (m : Mem) : Except ErrorCode Mem :=
  if realSize m > allocSize m then .error .assertion
  else
    let off := footOff m
    let m' := writeLe m 14 2 (foot m)
    .ok (writeLe m' off 2 (seqNo m'))

/-- `fixup_block` (lines 57–80). -/
def fixupBlock (m : Mem) : Except ErrorCode Mem :=
  if realSize m > allocSize m then .error .assertion
  else if foot m = seqNo m then
    let m' := writeLe m (footOff m) 2 (fixup m)
    .ok (writeLe m' 12 2 (seqNo m' + 1))
  else .error .invalidObject

/-- `verify_block` (lines 82–107). -/
def verifyBlock (m : Mem) (id size : ℕ) : Except ErrorCode Unit :=
  if id = 0 ∨ size = 0 then .error .assertion
  else if blkId m ≠ id then .error .invalidObject
  else if allocSize m ≠ size then .error .invalidObject
  else if realSize m > allocSize m ∨ realSize m < blockHeadSize then .error .invalidObject
  else .ok ()

/-! ## Disk -/

/-- The bytes of the container file and a buffer. -/
structure Store where
  disk : Mem
  blk : Mem

/-- What `os_file_pwrite` comes back with: the code of a failing seek, or the number of bytes that
`fwrite` took, which are the first ones. -/
inductive WriteResult
  | seek
  | count (n : ℕ)
  deriving DecidableEq, Repr

/-- The offset in the file of a block, in the arithmetic of `uint64_t`. -/
def startOf (vbn : ℕ) : ℤ := uint64 (uint64 (vbn * sectorsPerBlock) * bytesPerSector)

/-- The first `n` bytes of `src` over those of `dst` from `start` on. -/
def putBytes (start : ℤ) (n : ℕ) (src dst : Mem) : Mem := fun i =>
  if start ≤ i ∧ i < start + n then src (i - start) else dst i

/-- `ofs_update_block` (`ofs_block.h`, lines 65–72) of `size` bytes of the buffer. -/
def ofsUpdateBlock (o : WriteResult) (size vbn : ℕ) : EStateM ErrorCode Store ℕ := do
  assertThat (size ≠ 0)
  match o with
  | .seek => throw .disk
  | .count n =>
    modify fun s => { s with disk := putBytes (startOf vbn) (min n size) s.blk s.disk }
    return min n size

/-- `ofs_read_block` (`ofs_block.h`, lines 74–81): `size` bytes into the buffer. -/
def ofsReadBlock (size vbn : ℕ) : EStateM ErrorCode Store Unit := do
  assertThat (size ≠ 0)
  modify fun s => { s with blk := putBytes 0 size (fun i => s.disk (startOf vbn + i)) s.blk }

/-- `ofs_update_block_fixup` (lines 109–137). A failing write is told after `fixup_block`. -/
def ofsUpdateBlockFixup (o : WriteResult) (vbn : ℕ) : EStateM ErrorCode Store ℕ := do
  let blk ← fromExcept (assembleBlock (← get).blk)
  modify fun s => { s with blk }
  let ret ← codeOf (ofsUpdateBlock o (allocSize blk) vbn)
  let blk ← fromExcept (fixupBlock (← get).blk)
  modify fun s => { s with blk }
  fromExcept ret

/-- `ofs_read_block_fixup` (lines 139–166). -/
def ofsReadBlockFixup (vbn id size : ℕ) : EStateM ErrorCode Store Unit := do
  ofsReadBlock size vbn
  fromExcept (verifyBlock (← get).blk id size)
  let blk ← fromExcept (fixupBlock (← get).blk)
  modify fun s => { s with blk }

/-! ## Fields -/

/-- A block whose head and last two bytes do not overlap. -/
structure Framed (m : Mem) : Prop where
  realSize : realSize m ≤ allocSize m
  room : 18 ≤ allocSize m

/-- The bytes that framing leaves alone: all but `seq_no`, `fixup` and the last two. -/
def SameBody (m m' : Mem) : Prop :=
  ∀ i : ℤ, i < 12 ∨ 16 ≤ i → i < footOff m ∨ footOff m + 2 ≤ i → m' i = m i

/-- The first `n` bytes are the same. -/
def SameUpTo (n : ℕ) (m m' : Mem) : Prop := ∀ i : ℤ, 0 ≤ i → i < n → m i = m' i

/-- The bytes between the head and the last two. -/
def body (m : Mem) : Bytes := (List.range (allocSize m - blockHeadSize - 2)).map fun i : ℕ => m (16 + i)

/-- A block as `Block.Pingpong` has it. -/
def imageOf (m : Mem) : Block.BlockImage :=
  ⟨blkId m, allocSize m, realSize m, seqNo m, fixup m, body m, foot m⟩

section Fields

variable {m m' : Mem} {n : ℕ}

theorem Framed.footOff (h : Framed m) : 16 ≤ footOff m ∧ footOff m + 2 = allocSize m := by
  have hroom := h.room
  unfold Framing.footOff
  omega

theorem SameBody.head {off : ℤ} {k : ℕ} (h : SameBody m m') (hm : Framed m) (hk : off + k ≤ 12) :
    readLe m' off k = readLe m off k := by
  have hfoot := hm.footOff
  exact readLe_congr fun i hlo hhi => h i (.inl (by omega)) (.inl (by omega))

theorem SameBody.allocSize (h : SameBody m m') (hm : Framed m) : allocSize m' = allocSize m :=
  h.head hm (by norm_num)

theorem SameBody.realSize (h : SameBody m m') (hm : Framed m) : realSize m' = realSize m :=
  h.head hm (by norm_num)

theorem SameBody.footOff (h : SameBody m m') (hm : Framed m) : Framing.footOff m' = Framing.footOff m := by
  unfold Framing.footOff
  rw [h.allocSize hm]

theorem SameBody.framed (h : SameBody m m') (hm : Framed m) : Framed m' :=
  ⟨by rw [h.realSize hm, h.allocSize hm]; exact hm.realSize, by rw [h.allocSize hm]; exact hm.room⟩

/-- Framing changes an image in `seq_no`, `fixup` and the last two bytes only. -/
theorem SameBody.imageOf (h : SameBody m m') (hm : Framed m) :
    imageOf m' = { imageOf m with seqNo := seqNo m', fixup := fixup m', foot := foot m' } := by
  have hfoot := hm.footOff
  have hbody : body m' = body m := by
    unfold body
    rw [h.allocSize hm]
    refine List.map_congr_left fun i hi => ?_
    rw [List.mem_range] at hi
    unfold blockHeadSize at hi
    exact h _ (.inr (by omega)) (.inl (by omega))
  unfold Framing.imageOf
  rw [hbody, h.allocSize hm, h.realSize hm, show blkId m' = blkId m from h.head hm (by norm_num)]

theorem foot_lt (m : Mem) : foot m < 256 ^ 2 := readLe_lt m _ 2

theorem seqNo_lt (m : Mem) : seqNo m < 256 ^ 2 := readLe_lt m _ 2

theorem fixup_lt (m : Mem) : fixup m < 256 ^ 2 := readLe_lt m _ 2

end Fields

/-! ## Framing in memory -/

/-- The block on the disk. -/
def assembled (m : Mem) : Mem := writeLe (writeLe m 14 2 (foot m)) (footOff m) 2 (seqNo m)

/-- What `fixup_block` makes of a block. -/
def fixed (m : Mem) : Mem := writeLe (writeLe m (footOff m) 2 (fixup m)) 12 2 (seqNo m + 1)

/-- The block in memory after it was written. -/
def completed (m : Mem) : Mem := writeLe (writeLe m 14 2 (foot m)) 12 2 (seqNo m + 1)

section Framing

variable {m m' : Mem} {n : ℕ}

theorem assembleBlock_eq (h : Framed m) : assembleBlock m = .ok (assembled m) := by
  have hseq : seqNo (writeLe m 14 2 (foot m)) = seqNo m := readLe_writeLe_disjoint (by norm_num)
  unfold assembleBlock assembled
  rw [if_neg (not_lt.mpr h.realSize)]
  dsimp only
  rw [hseq]

theorem assembled_sameBody : SameBody m (assembled m) := by
  intro i hi hfoot
  unfold assembled
  rw [writeLe_outside (by push_cast; exact hfoot), writeLe_outside (by omega)]

theorem foot_assembled (h : Framed m) : foot (assembled m) = seqNo m := by
  unfold foot
  rw [assembled_sameBody.footOff h]
  unfold assembled
  rw [readLe_writeLe, Nat.mod_eq_of_lt (seqNo_lt m)]

theorem fixup_assembled (h : Framed m) : fixup (assembled m) = foot m := by
  have hfoot := h.footOff
  have hdisjoint : fixup (assembled m) = readLe (writeLe m 14 2 (foot m)) 14 2 :=
    readLe_writeLe_disjoint (.inl (by push_cast; omega))
  rw [hdisjoint, readLe_writeLe, Nat.mod_eq_of_lt (foot_lt m)]

theorem seqNo_assembled (h : Framed m) : seqNo (assembled m) = seqNo m := by
  have hfoot := h.footOff
  have hdisjoint : seqNo (assembled m) = readLe (writeLe m 14 2 (foot m)) 12 2 :=
    readLe_writeLe_disjoint (.inl (by push_cast; omega))
  rw [hdisjoint]
  exact readLe_writeLe_disjoint (by norm_num)

theorem fixupBlock_eq (h : Framed m) (hseq : foot m = seqNo m) : fixupBlock m = .ok (fixed m) := by
  have hfoot := h.footOff
  have hkept : seqNo (writeLe m (footOff m) 2 (fixup m)) = seqNo m :=
    readLe_writeLe_disjoint (.inl (by push_cast; omega))
  unfold fixupBlock fixed
  rw [if_neg (not_lt.mpr h.realSize), if_pos hseq]
  dsimp only
  rw [hkept]

theorem fixed_sameBody : SameBody m (fixed m) := by
  intro i hi hfoot
  unfold fixed
  rw [writeLe_outside (by push_cast; omega), writeLe_outside (by push_cast; exact hfoot)]

theorem foot_fixed (h : Framed m) : foot (fixed m) = fixup m := by
  have hfoot := h.footOff
  have hdisjoint : foot (fixed m) = readLe (writeLe m (footOff m) 2 (fixup m)) (footOff m) 2 := by
    unfold foot
    rw [fixed_sameBody.footOff h]
    exact readLe_writeLe_disjoint (.inr (by push_cast; omega))
  rw [hdisjoint, readLe_writeLe, Nat.mod_eq_of_lt (fixup_lt m)]

theorem fixup_fixed (h : Framed m) : fixup (fixed m) = fixup m := by
  have hfoot := h.footOff
  have hdisjoint : fixup (fixed m) = readLe (writeLe m (footOff m) 2 (fixup m)) 14 2 :=
    readLe_writeLe_disjoint (by norm_num)
  rw [hdisjoint]
  exact readLe_writeLe_disjoint (.inl (by push_cast; omega))

theorem seqNo_fixed (m : Mem) : seqNo (fixed m) = uint16 (seqNo m + 1) := readLe_writeLe

/-- `fixup_block` puts the last two bytes back, whatever they are, and counts. -/
theorem fixed_assembled (h : Framed m) : fixed (assembled m) = completed m := by
  have hfoot := h.footOff
  have hback : writeLe (assembled m) (footOff m) 2 (foot m) = writeLe m 14 2 (foot m) := by
    have htail : foot m = readLe (writeLe m 14 2 (foot m)) (footOff m) 2 :=
      (readLe_writeLe_disjoint (.inr (by push_cast; omega))).symm
    conv_lhs => rw [htail]
    exact writeLe_readLe fun i hi => writeLe_outside hi
  unfold fixed completed
  rw [assembled_sameBody.footOff h, fixup_assembled h, seqNo_assembled h, hback]

theorem fixupBlock_assembled (h : Framed m) : fixupBlock (assembled m) = .ok (completed m) := by
  rw [fixupBlock_eq (assembled_sameBody.framed h) (by rw [foot_assembled h, seqNo_assembled h]), fixed_assembled h]

/-- The buffer after a write: only `seq_no` and `fixup` have changed. -/
theorem completed_outside {i : ℤ} (hi : i < 12 ∨ 16 ≤ i) : completed m i = m i := by
  unfold completed
  rw [writeLe_outside (by push_cast; omega), writeLe_outside (by push_cast; omega)]

theorem seqNo_completed (m : Mem) : seqNo (completed m) = uint16 (seqNo m + 1) := readLe_writeLe

theorem fixup_completed (m : Mem) : fixup (completed m) = foot m := by
  have hdisjoint : fixup (completed m) = readLe (writeLe m 14 2 (foot m)) 14 2 :=
    readLe_writeLe_disjoint (by norm_num)
  rw [hdisjoint, readLe_writeLe, Nat.mod_eq_of_lt (foot_lt m)]

theorem imageOf_assembleBlock (h : Framed m) :
    (assembleBlock m).map imageOf = .ok (Block.assembleBlock (imageOf m)) := by
  rw [assembleBlock_eq h]
  show Except.ok (imageOf (assembled m)) = _
  rw [assembled_sameBody.imageOf h, seqNo_assembled h, fixup_assembled h, foot_assembled h]
  rfl

theorem imageOf_fixupBlock (h : Framed m) : (fixupBlock m).map imageOf = Block.fixupBlock (imageOf m) := by
  by_cases hseq : foot m = seqNo m
  · rw [fixupBlock_eq h hseq]
    show Except.ok (imageOf (fixed m)) = _
    rw [fixed_sameBody.imageOf h, seqNo_fixed, fixup_fixed h, foot_fixed h]
    exact (if_pos hseq).symm
  · unfold fixupBlock
    rw [if_neg (not_lt.mpr h.realSize), if_neg hseq]
    exact (if_neg hseq).symm

/-! ## A block that is read -/

theorem SameUpTo.readLe {off : ℤ} {k : ℕ} (h : SameUpTo n m m') (h0 : 0 ≤ off) (hk : off + k ≤ n) :
    readLe m off k = readLe m' off k :=
  readLe_congr fun i hlo hhi => h i (by omega) (by omega)

theorem SameUpTo.footOff (h : SameUpTo n m m') (hn : 16 ≤ n) : footOff m = footOff m' := by
  unfold Framing.footOff
  rw [show allocSize m = allocSize m' from h.readLe (by norm_num) (by omega)]

theorem SameUpTo.fixed (h : SameUpTo n m m') (hn : 16 ≤ n) : SameUpTo n (fixed m) (fixed m') := by
  intro i h0 hi
  unfold Framing.fixed
  rw [h.footOff hn, show fixup m = fixup m' from h.readLe (by norm_num) (by omega),
    show seqNo m = seqNo m' from h.readLe (by norm_num) (by omega)]
  exact writeLe_congr (writeLe_congr (h i h0 hi))

end Framing

/-! ## Disk and buffer -/

section RoundTrip

variable {s s' : Store} {o : WriteResult} {vbn : ℕ}

/-- The buffer is completed, whatever becomes of the write. -/
theorem ofsUpdateBlockFixup_eq (o : WriteResult) (vbn : ℕ) (h : Framed s.blk) : ofsUpdateBlockFixup o vbn s =
    match o with
    | .seek => .error .disk ⟨s.disk, completed s.blk⟩
    | .count n => .ok (min n (allocSize s.blk))
        ⟨putBytes (startOf vbn) (min n (allocSize s.blk)) (assembled s.blk) s.disk, completed s.blk⟩ := by
  have hsize : allocSize s.blk ≠ 0 := by
    have hroom := h.room
    omega
  have hassembled : allocSize (assembled s.blk) = allocSize s.blk := assembled_sameBody.allocSize h
  cases o <;>
    simp [ofsUpdateBlockFixup, ofsUpdateBlock, codeOf, attempt, fromExcept, bind, EStateM.bind, get, getThe,
      MonadStateOf.get, EStateM.get, modify, modifyGet, MonadStateOf.modifyGet, EStateM.modifyGet, pure, EStateM.pure,
      throw, throwThe, MonadExceptOf.throw, EStateM.throw, assertThat, ErrorCode.stops, assembleBlock_eq h,
      fixupBlock_assembled h, hassembled, hsize]

/-- A read goes through `verify_block` and `fixup_block`. -/
theorem ofsReadBlockFixup_eq {id size : ℕ} {b : Mem} (hsize : size ≠ 0)
    (hb : putBytes 0 size (fun i => s.disk (startOf vbn + i)) s.blk = b) :
    ofsReadBlockFixup vbn id size s =
      match verifyBlock b id size, fixupBlock b with
      | .error e, _ => .error e ⟨s.disk, b⟩
      | .ok _, .error e => .error e ⟨s.disk, b⟩
      | .ok _, .ok b' => .ok () ⟨s.disk, b'⟩ := by
  simp only [ofsReadBlockFixup, ofsReadBlock, assertThat, hsize, bind, EStateM.bind, get, getThe, MonadStateOf.get,
    EStateM.get, modify, modifyGet, MonadStateOf.modifyGet, EStateM.modifyGet, pure, EStateM.pure, ne_eq,
    not_false_eq_true, if_true, hb]
  cases verifyBlock b id size with
  | error e => rfl
  | ok _ =>
    simp only [fromExcept, pure, EStateM.pure]
    cases fixupBlock b <;> rfl

/-- `verify_block` accepts a block under its own id and size. -/
theorem verifyBlock_own {m : Mem} {n : ℕ} {b : Mem} (hm : Framed m) (hb : SameUpTo n b (assembled m)) (hn : 16 ≤ n)
    (hid : blkId m ≠ 0) (hhead : blockHeadSize ≤ realSize m) :
    verifyBlock b (blkId m) (allocSize m) = .ok () := by
  have hbody : SameBody m (assembled m) := assembled_sameBody
  have hblk : blkId b = blkId m := (hb.readLe (by norm_num) (by omega)).trans (hbody.head hm (by norm_num))
  have halloc : allocSize b = allocSize m := (hb.readLe (by norm_num) (by omega)).trans (hbody.allocSize hm)
  have hreal : realSize b = realSize m := (hb.readLe (by norm_num) (by omega)).trans (hbody.realSize hm)
  have hle := hm.realSize
  have hroom := hm.room
  unfold verifyBlock
  rw [if_neg (by omega), if_neg (by omega), if_neg (by omega), if_neg (by omega)]

/-- The read of a block that the disk has as a whole. -/
theorem ofsReadBlockFixup_written {m : Mem} (vbn : ℕ) (hm : Framed m) (hid : blkId m ≠ 0)
    (hhead : blockHeadSize ≤ realSize m)
    (hdisk : ∀ i : ℤ, 0 ≤ i → i < allocSize m → s.disk (startOf vbn + i) = assembled m i) :
    ∃ b, ofsReadBlockFixup vbn (blkId m) (allocSize m) s = .ok () ⟨s.disk, b⟩ ∧
      SameUpTo (allocSize m) b (completed m) := by
  have hroom := hm.room
  obtain ⟨b, hb⟩ : ∃ b, putBytes 0 (allocSize m) (fun i => s.disk (startOf vbn + i)) s.blk = b := ⟨_, rfl⟩
  have hsame : SameUpTo (allocSize m) b (assembled m) := by
    intro i h0 hi
    rw [← hb]
    unfold putBytes
    rw [if_pos ⟨h0, by omega⟩, sub_zero]
    exact hdisk i h0 hi
  have hframed : Framed (assembled m) := assembled_sameBody.framed hm
  have halloc : allocSize b = allocSize (assembled m) := hsame.readLe (by norm_num) (by omega)
  have hreal : realSize b = realSize (assembled m) := hsame.readLe (by norm_num) (by omega)
  have hb' : Framed b := ⟨by rw [hreal, halloc]; exact hframed.realSize, by rw [halloc]; exact hframed.room⟩
  have hfoot : foot b = seqNo b := by
    have hoff := hframed.footOff
    have hsize := assembled_sameBody.allocSize hm
    have h1 : foot b = foot (assembled m) := by
      unfold foot
      rw [hsame.footOff (by omega)]
      exact hsame.readLe (by omega) (by push_cast; omega)
    have h2 : seqNo b = seqNo (assembled m) := hsame.readLe (by norm_num) (by omega)
    rw [h1, h2, foot_assembled hm, seqNo_assembled hm]
  refine ⟨fixed b, ?_, ?_⟩
  · rw [ofsReadBlockFixup_eq (by omega) hb, verifyBlock_own hm hsame (by omega) hid hhead, fixupBlock_eq hb' hfoot]
  · rw [← fixed_assembled hm]
    exact hsame.fixed (by omega)

/-- Offset of `content` in `attr_record_t`. -/
def attrRecordHeadSize : ℕ := 12

/-- The address of the root block in the block of an inode: `INODE_GET_ATTR_RECORD(inode)->content`. -/
def rootBlockOff (inode : Mem) : ℤ := readLe inode 16 2 + attrRecordHeadSize

/-- A write that the disk takes as a whole leaves the buffer as it is, but for `seq_no` and `fixup`, and a read
of the block under its own id and size gives the same bytes. So does the root block inside the block of an
inode keep its bytes. -/
theorem framing_round_trip (hsize : allocSize s.blk = 512 ∨ allocSize s.blk = 4096)
    (hhead : blockHeadSize ≤ realSize s.blk) (hreal : realSize s.blk ≤ allocSize s.blk) (hid : blkId s.blk ≠ 0)
    (hupdate : ofsUpdateBlockFixup o vbn s = .ok (allocSize s.blk) s') :
    (∀ i, i < 12 ∨ 16 ≤ i → s'.blk i = s.blk i) ∧ seqNo s'.blk = (seqNo s.blk + 1) % 2 ^ 16 ∧
      fixup s'.blk = foot s.blk ∧
      ∀ buf, ∃ s'', ofsReadBlockFixup vbn (blkId s.blk) (allocSize s.blk) { s' with blk := buf } = .ok () s'' ∧
        (∀ i : ℤ, 0 ≤ i → i < allocSize s.blk → s''.blk i = s'.blk i) ∧
        ∀ i, 16 ≤ rootBlockOff s.blk + i → rootBlockOff s.blk + i < allocSize s.blk →
          s''.blk (rootBlockOff s''.blk + i) = s.blk (rootBlockOff s.blk + i) := by
  have hframed : Framed s.blk := ⟨hreal, by omega⟩
  have hs' : s' = ⟨putBytes (startOf vbn) (allocSize s.blk) (assembled s.blk) s.disk, completed s.blk⟩ := by
    rw [ofsUpdateBlockFixup_eq o vbn hframed] at hupdate
    cases o with
    | seek => cases hupdate
    | count n =>
      obtain ⟨hmin, hs⟩ := EStateM.Result.ok.inj hupdate
      rw [← hs, hmin]
  subst hs'
  refine ⟨fun i hi => completed_outside hi, seqNo_completed _, fixup_completed _, fun buf => ?_⟩
  obtain ⟨b, hread, hsame⟩ := ofsReadBlockFixup_written vbn
    (s := ⟨putBytes (startOf vbn) (allocSize s.blk) (assembled s.blk) s.disk, buf⟩) hframed hid hhead fun i h0 hi => by
      show putBytes _ _ _ _ _ = _
      unfold putBytes
      rw [if_pos ⟨by omega, by omega⟩, add_sub_cancel_left]
  have hroot : rootBlockOff b = rootBlockOff s.blk := by
    unfold rootBlockOff
    rw [hsame.readLe (by norm_num) (by omega), readLe_congr fun i hlo _ => completed_outside (.inr hlo)]
  refine ⟨_, hread, hsame, fun i h0 hi => ?_⟩
  rw [hroot]
  exact (hsame _ (by omega) hi).trans (completed_outside (.inr h0))

/-- A block of 512 bytes, all of them `0xFF` but for its id and sizes. -/
def fullBlock (id : ℕ) : Mem := writeLe (writeLe (writeLe (fun _ => 0xFF) 0 4 id) 4 4 512) 8 4 16

theorem fullBlock_framed (id : ℕ) : allocSize (fullBlock id) = 512 ∧ Framed (fullBlock id) := by
  have halloc : allocSize (fullBlock id) = 512 :=
    (readLe_writeLe_disjoint (by norm_num)).trans readLe_writeLe
  have hreal : realSize (fullBlock id) = 16 := readLe_writeLe
  exact ⟨halloc, by omega, by omega⟩

theorem framing_round_trip_wraps : ∃ s', ofsUpdateBlockFixup (.count 512) 3 ⟨fun _ => 0, fullBlock 9⟩ = .ok 512 s' ∧
    seqNo (fullBlock 9) = 65535 ∧ seqNo s'.blk = (seqNo (fullBlock 9) + 1) % 2 ^ 16 := by
  have hupdate := (ofsUpdateBlockFixup_eq (s := ⟨fun _ => 0, fullBlock 9⟩) (.count 512) 3
    (fullBlock_framed 9).2).trans rfl
  exact ⟨_, hupdate, by decide, (framing_round_trip (s := ⟨fun _ => 0, fullBlock 9⟩) (.inl (by decide)) (by decide)
    (by decide) (by decide) hupdate).2.1⟩

/-- A block with the id 0 can be written, but not read; and a write cut short is not told, so that the block
that is read is not the one that was written. -/
theorem framing_round_trip_fails :
    (∃ s', ofsUpdateBlockFixup (.count 512) 3 ⟨fun _ => 0, fullBlock 0⟩ = .ok 512 s' ∧
      Ends (ofsReadBlockFixup 3 0 512) s' (fun _ _ => False) fun e _ => e = .assertion) ∧
    ∃ s', ofsUpdateBlockFixup (.count 100) 3 ⟨fun _ => 0, fullBlock 9⟩ = .ok 100 s' ∧
      Ends (ofsReadBlockFixup 3 9 512) s' (fun _ _ => False) fun e _ => e = .invalidObject := by
  refine ⟨⟨_, (ofsUpdateBlockFixup_eq _ _ (fullBlock_framed 0).2).trans rfl, ?_⟩,
    ⟨_, (ofsUpdateBlockFixup_eq _ _ (fullBlock_framed 9).2).trans rfl, ?_⟩⟩
  · unfold Ends
    rw [ofsReadBlockFixup_eq (by norm_num) rfl]
    rfl
  · -- the last two bytes are still those of the old block
    obtain ⟨b, hb⟩ : ∃ b, putBytes 0 512 (fun i => putBytes (startOf 3) (min 100 512) (assembled (fullBlock 9))
      (fun _ => 0) (startOf 3 + i)) (completed (fullBlock 9)) = b := ⟨_, rfl⟩
    have hverify : verifyBlock b 9 512 = .ok () := by subst hb; decide
    have hreal : ¬ realSize b > allocSize b := by subst hb; decide
    have hfoot : foot b ≠ seqNo b := by subst hb; decide
    unfold Ends
    rw [ofsReadBlockFixup_eq (by norm_num) hb, hverify]
    unfold fixupBlock
    rw [if_neg hreal, if_neg hfoot]

end RoundTrip

end IndexFs.Framing
