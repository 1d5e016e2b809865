import IndexFs.Block.Pingpong

/-!
# Torn writes of a block

`ofs_update_block_fixup` and `ofs_read_block_fixup` of `object_system/ofs_block_rw.c`
(lines 107–166). A crash leaves the first sectors of a block new and the others old;
the number in the head, saved in the last two bytes, is to tell.

Results:

* `blockBytes_tear`: what a crash leaves, in bytes.
* `given_iff`: the program gives a block any number, whatever the one it overwrites has.
* `torn_write_exact`: a read after the crash fails or returns one of the two images,
  exactly if the numbers differ or the sectors that are exchanged do not.
* `torn_write_fresh`: two fresh blocks.
-/

namespace IndexFs.Block

/-- `BYTES_PER_SECTOR`. -/
def bytesPerSector : ℕ := 512

/-- The number of sectors of a block. -/
def sectorsPerBlock : ℕ := blockSize / bytesPerSector

/-- The bytes between the head and the end of the first `k` sectors. -/
def bodyBytes (k : ℕ) : ℕ := bytesPerSector * k - blockHeadSize

/-- A crash after `k` sectors: the head lies in the first one, the foot in the last. -/
def tear (k : ℕ) (new old : BlockImage) : BlockImage :=
  if k = 0 then old
  else if sectorsPerBlock ≤ k then new
  else { new with body := new.body.take (bodyBytes k) ++ old.body.drop (bodyBytes k), foot := old.foot }

/-- The blocks on the disk and a block in memory. -/
structure BlockStore where
  disk : ℕ → BlockImage
  blk : BlockImage

/-- `ofs_update_block_fixup` (lines 109–137), of which `k` sectors reach the disk. -/
def ofsUpdateBlockFixup (vbn k : ℕ) : EStateM ErrorCode BlockStore Unit := do
  if (← get).blk.realSize > (← get).blk.allocSize then throw .assertion
  modify fun s =>
    let blk := assembleBlock s.blk
    { disk := Function.update s.disk vbn (tear k blk (s.disk vbn)), blk }
  let blk ← fromExcept (fixupBlock (← get).blk)
  modify fun s => { s with blk }
  if sectorsPerBlock ≤ k then return () else throw .disk

/-- `ofs_read_block_fixup` (lines 139–166). -/
def ofsReadBlockFixup (vbn blkId allocSize : ℕ) : EStateM ErrorCode BlockStore Unit := do
  modify fun s => { s with blk := s.disk vbn }
  fromExcept (verifyBlock (← get).blk blkId allocSize)
  let blk ← fromExcept (fixupBlock (← get).blk)
  modify fun s => { s with blk }

/-- `old` is written to the block `vbn`, `new` is cut off after `k` sectors, and the block is read. -/
def readAfterCrash (old new : BlockImage) (vbn blkId k : ℕ) : EStateM ErrorCode BlockStore Unit := do
  modify fun s => { s with blk := old }
  ofsUpdateBlockFixup vbn sectorsPerBlock
  modify fun s => { s with blk := new }
  let _ ← attempt (ofsUpdateBlockFixup vbn k)
  ofsReadBlockFixup vbn blkId blockSize

/-- What a read of a block that was written as a whole returns. -/
def complete (blk : BlockImage) : BlockImage :=
  { blk with fixup := blk.foot, seqNo := (blk.seqNo + 1) % 2 ^ 16 }

/-- A block of 4096 bytes. -/
structure FullBlock (blk : BlockImage) : Prop where
  allocSize : blk.allocSize = blockSize
  realSize : blk.realSize ≤ blockSize
  body : blk.body.length = blockSize - blockHeadSize - 2

/-! ## Bytes -/

/-- The `n` bytes of a little-endian number. -/
def littleBytes (n x : ℕ) : Bytes := (List.range n).map fun i => UInt8.ofNat (x / 256 ^ i % 256)

/-- `block_head_t` in memory. -/
def headBytes (blk : BlockImage) : Bytes :=
  littleBytes 4 blk.blkId ++ littleBytes 4 blk.allocSize ++ littleBytes 4 blk.realSize ++
    littleBytes 2 blk.seqNo ++ littleBytes 2 blk.fixup

/-- A block in memory. -/
def blockBytes (blk : BlockImage) : Bytes := headBytes blk ++ (blk.body ++ littleBytes 2 blk.foot)

section Bytes

variable {old new : BlockImage} {k : ℕ}

@[simp] theorem headBytes_length (blk : BlockImage) : (headBytes blk).length = blockHeadSize := by
  simp [headBytes, littleBytes, blockHeadSize]

/-- The first `k` sectors are those of `new`, the others those of `old`. -/
theorem blockBytes_tear (hnew : FullBlock new) (hold : FullBlock old) (hk : k ≤ sectorsPerBlock) :
    blockBytes (tear k new old) =
      (blockBytes new).take (bytesPerSector * k) ++ (blockBytes old).drop (bytesPerSector * k) := by
  have hlen : ∀ {blk}, FullBlock blk → (blockBytes blk).length = blockSize := by
    intro blk hblk
    simp [blockBytes, littleBytes, hblk.body, blockSize, blockHeadSize]
  unfold tear
  split_ifs with h0 h8
  · simp [h0]
  · obtain rfl : k = sectorsPerBlock := le_antisymm hk h8
    rw [List.take_of_length_le (by rw [hlen hnew]; decide), List.drop_eq_nil_of_le (by rw [hlen hold]; decide),
      List.append_nil]
  · -- the cut goes through the bodies
    have hcut : bytesPerSector * k = blockHeadSize + bodyBytes k := by
      unfold bodyBytes bytesPerSector blockHeadSize
      omega
    have hbody : bodyBytes k ≤ blockSize - blockHeadSize - 2 := by
      unfold bodyBytes bytesPerSector blockHeadSize blockSize
      unfold sectorsPerBlock blockSize bytesPerSector at h8
      omega
    have htake : (blockBytes new).take (bytesPerSector * k) = headBytes new ++ new.body.take (bodyBytes k) := by
      rw [hcut, blockBytes, ← headBytes_length new, List.take_length_add_append,
        List.take_append_of_le_length (by rw [hnew.body]; exact hbody)]
    have hdrop : (blockBytes old).drop (bytesPerSector * k) =
        old.body.drop (bodyBytes k) ++ littleBytes 2 old.foot := by
      rw [hcut, blockBytes, ← headBytes_length old, List.drop_length_add_append,
        List.drop_append_of_le_length (by rw [hold.body]; exact hbody)]
    rw [htake, hdrop]
    simp [blockBytes, headBytes]

end Bytes

/-! ## Numbers -/

/-- A block that the program has in memory: one from `init_ib`, whatever is entered into it, and one that
was written or read. Any of them may be written where another one was. -/
inductive Given : BlockImage → Prop
  | init (blk : BlockImage) (h : blk.seqNo = 0) : Given blk
  | edit (blk blk' : BlockImage) (h : blk'.seqNo = blk.seqNo) : Given blk → Given blk'
  | fixup (blk : BlockImage) : Given blk → Given (complete blk)

/-- Every number of 16 bits is given to a block. -/
theorem given_iff {blk : BlockImage} : Given blk ↔ blk.seqNo < 2 ^ 16 := by
  constructor
  · intro h
    induction h with
    | init blk h => rw [h]; norm_num
    | edit blk blk' h _ ih => rwa [h]
    | fixup blk _ _ => exact Nat.mod_lt _ (by norm_num)
  · have hall : ∀ n < 2 ^ 16, ∀ blk : BlockImage, blk.seqNo = n → Given blk := by
      intro n hn
      induction n with
      | zero => exact Given.init
      | succ n ih =>
        intro blk hblk
        have hprev : Given { blk with seqNo := n } := ih (Nat.lt_of_succ_lt hn) _ rfl
        refine .edit _ _ ?_ (.fixup _ hprev)
        rw [hblk]
        exact (Nat.mod_eq_of_lt hn).symm
    exact fun h => hall _ h blk rfl

/-! ## The read after a crash -/

section Crash

variable {old new : BlockImage} {vbn blkId k : ℕ} {s : BlockStore}

theorem ofsUpdateBlockFixup_eq {blk : BlockImage} {disk : ℕ → BlockImage} (h : FullBlock blk) :
    ofsUpdateBlockFixup vbn k ⟨disk, blk⟩ =
      if sectorsPerBlock ≤ k then
        .ok () ⟨Function.update disk vbn (tear k (assembleBlock blk) (disk vbn)), complete blk⟩
      else .error .disk ⟨Function.update disk vbn (tear k (assembleBlock blk) (disk vbn)), complete blk⟩ := by
  have hreal : ¬ blk.realSize > blk.allocSize := by rw [h.allocSize]; exact not_lt.mpr h.realSize
  unfold ofsUpdateBlockFixup
  split_ifs with hk
  · simp [bind, EStateM.bind, get, getThe, MonadStateOf.get, EStateM.get, hreal, modify, modifyGet,
      MonadStateOf.modifyGet, EStateM.modifyGet, fixupBlock_assembleBlock, fromExcept, pure, EStateM.pure, complete]
  · simp [bind, EStateM.bind, get, getThe, MonadStateOf.get, EStateM.get, hreal, modify, modifyGet,
      MonadStateOf.modifyGet, EStateM.modifyGet, fixupBlock_assembleBlock, fromExcept, pure, EStateM.pure, complete,
      throw, throwThe, MonadExceptOf.throw, EStateM.throw]

/-- A read returns what `verify_block` and `fixup_block` let through. -/
theorem ofsReadBlockFixup_ok {allocSize : ℕ} {s' : BlockStore} :
    ofsReadBlockFixup vbn blkId allocSize s = .ok () s' ↔ verifyBlock (s.disk vbn) blkId allocSize = .ok () ∧
      ∃ blk, fixupBlock (s.disk vbn) = .ok blk ∧ s' = ⟨s.disk, blk⟩ := by
  unfold ofsReadBlockFixup
  simp only [bind, EStateM.bind, get, getThe, MonadStateOf.get, EStateM.get, modify, modifyGet,
    MonadStateOf.modifyGet, EStateM.modifyGet]
  cases verifyBlock (s.disk vbn) blkId allocSize with
  | error e => simp [fromExcept, throw, throwThe, MonadExceptOf.throw, EStateM.throw]
  | ok u =>
    cases hfixup : fixupBlock (s.disk vbn) with
    | error e =>
      simp [hfixup, fromExcept, throw, throwThe, MonadExceptOf.throw, EStateM.throw, pure, EStateM.pure]
    | ok blk => simp [hfixup, fromExcept, pure, EStateM.pure, eq_comm]

theorem readAfterCrash_eq (hold : FullBlock old) (hnew : FullBlock new) (hk : k < sectorsPerBlock) :
    readAfterCrash old new vbn blkId k s = ofsReadBlockFixup vbn blkId blockSize
      ⟨Function.update s.disk vbn (tear k (assembleBlock new) (assembleBlock old)), complete new⟩ := by
  have hfirst : ∀ disk, ofsUpdateBlockFixup vbn sectorsPerBlock ⟨disk, old⟩ =
      .ok () ⟨Function.update disk vbn (assembleBlock old), complete old⟩ := by
    intro disk
    rw [ofsUpdateBlockFixup_eq hold, if_pos le_rfl]
    rfl
  have hsecond : ∀ disk, ofsUpdateBlockFixup vbn k ⟨disk, new⟩ =
      .error .disk ⟨Function.update disk vbn (tear k (assembleBlock new) (disk vbn)), complete new⟩ := by
    intro disk
    rw [ofsUpdateBlockFixup_eq hnew, if_neg (not_le.mpr hk)]
  unfold readAfterCrash
  simp only [bind, EStateM.bind, modify, modifyGet, MonadStateOf.modifyGet, EStateM.modifyGet, hfirst, attempt,
    hsecond, Function.update_self, Function.update_idem]

/-- The new head and end with the two halves of the bodies. -/
def mixed (k : ℕ) (old new : BlockImage) : BlockImage :=
  { complete new with body := new.body.take (bodyBytes k) ++ old.body.drop (bodyBytes k) }

/-- What is read after a crash, if anything is: the head and the end of the new image. -/
theorem readAfterCrash_ok (hold : FullBlock old) (hnew : FullBlock new) (h0 : 0 < k) (hk : k < sectorsPerBlock)
    {s' : BlockStore} : readAfterCrash old new vbn blkId k s = .ok () s' ↔
      new.blkId = blkId ∧ blockHeadSize ≤ new.realSize ∧ old.seqNo = new.seqNo ∧
        s' = ⟨Function.update s.disk vbn (tear k (assembleBlock new) (assembleBlock old)), mixed k old new⟩ := by
  have htear : tear k (assembleBlock new) (assembleBlock old) = { assembleBlock new with
      body := new.body.take (bodyBytes k) ++ old.body.drop (bodyBytes k), foot := old.seqNo } := by
    unfold tear
    rw [if_neg h0.ne', if_neg (not_le.mpr hk)]
    rfl
  have hverify : ∀ {body : Bytes} {foot : ℕ},
      verifyBlock { assembleBlock new with body := body, foot := foot } blkId blockSize = .ok () ↔
        new.blkId = blkId ∧ blockHeadSize ≤ new.realSize := by
    intro body foot
    have hreal := hnew.realSize
    unfold verifyBlock assembleBlock
    simp only [hnew.allocSize]
    split_ifs with h1 h2 h3
    · simp [h1]
    · exact absurd rfl h2
    · simp only [false_iff]
      omega
    · exact ⟨fun _ => ⟨not_not.mp h1, by omega⟩, fun _ => rfl⟩
  rw [readAfterCrash_eq hold hnew hk, ofsReadBlockFixup_ok]
  simp only [Function.update_self, htear, hverify]
  unfold fixupBlock
  dsimp only [assembleBlock]
  split_ifs with hseq
  · simp [hseq, mixed, complete, and_assoc]
  · simp [hseq]

/-- The bytes behind the first `k` sectors are the same. -/
def SameBehind (k : ℕ) (old new : BlockImage) : Prop :=
  old.body.drop (bodyBytes k) = new.body.drop (bodyBytes k)

/-- The first `k` sectors are the same, less the number, and so are the last two bytes, which a written
block has in its head. -/
def SameBefore (k : ℕ) (old new : BlockImage) : Prop :=
  old.blkId = new.blkId ∧ old.realSize = new.realSize ∧ old.foot = new.foot ∧
    old.body.take (bodyBytes k) = new.body.take (bodyBytes k)

theorem mixed_eq_new : mixed k old new = complete new ↔ SameBehind k old new := by
  have hbody : new.body.take (bodyBytes k) ++ new.body.drop (bodyBytes k) = new.body := List.take_append_drop _ _
  unfold mixed complete SameBehind
  simp only [BlockImage.mk.injEq, true_and, and_true]
  constructor
  · intro h
    exact List.append_cancel_left (h.trans hbody.symm)
  · intro h
    rw [h, hbody]

theorem mixed_eq_old (hold : FullBlock old) (hnew : FullBlock new) (hseq : old.seqNo = new.seqNo) :
    mixed k old new = complete old ↔ SameBefore k old new := by
  have hbody : old.body.take (bodyBytes k) ++ old.body.drop (bodyBytes k) = old.body := List.take_append_drop _ _
  have htakes : (new.body.take (bodyBytes k)).length = (old.body.take (bodyBytes k)).length := by
    rw [List.length_take, List.length_take, hnew.body, hold.body]
  unfold mixed complete SameBefore
  simp only [BlockImage.mk.injEq]
  constructor
  · rintro ⟨hblk, -, hsize, -, hfoot, h, -⟩
    exact ⟨hblk.symm, hsize.symm, hfoot.symm, (List.append_inj (h.trans hbody.symm) htakes).1.symm⟩
  · rintro ⟨hblk, hsize, hfoot, h⟩
    rw [← h, hbody]
    exact ⟨hblk.symm, hnew.allocSize.trans hold.allocSize.symm, hsize.symm, by rw [hseq], hfoot.symm, rfl, hfoot.symm⟩

/-- A read after a crash fails or returns one of the two images, exactly if it does not take the block for
one it is not looking for, the numbers differ, or one side of the crash is the same in both images. -/
theorem torn_write_exact (hold : FullBlock old) (hnew : FullBlock new) (h0 : 0 < k) (hk : k < sectorsPerBlock) :
    (∀ s', readAfterCrash old new vbn blkId k s = .ok () s' → s'.blk = complete old ∨ s'.blk = complete new) ↔
      new.blkId ≠ blkId ∨ new.realSize < blockHeadSize ∨ old.seqNo ≠ new.seqNo ∨ SameBehind k old new ∨
        SameBefore k old new := by
  simp only [readAfterCrash_ok hold hnew h0 hk]
  constructor
  · intro h
    by_contra hno
    simp only [not_or, not_not, not_lt] at hno
    obtain ⟨hid, hreal, hseq, hbehind, hbefore⟩ := hno
    rcases h _ ⟨hid, hreal, hseq, rfl⟩ with heq | heq
    · exact hbefore ((mixed_eq_old hold hnew hseq).mp heq)
    · exact hbehind (mixed_eq_new.mp heq)
  · rintro h s' ⟨hid, hreal, hseq, rfl⟩
    rcases h with h | h | h | h | h
    · exact absurd hid h
    · exact absurd hreal (not_le.mpr h)
    · exact absurd hseq h
    · exact .inr (mixed_eq_new.mpr h)
    · exact .inl ((mixed_eq_old hold hnew hseq).mpr h)

/-- `INDEX_MAGIC`. -/
def indexMagic : ℕ := 0x58444E49

/-- A block of a tree whose body is filled with one byte. -/
def filledBlock (seqNo : ℕ) (c : UInt8) : BlockImage :=
  ⟨indexMagic, blockSize, blockSize, seqNo, 0, List.replicate (blockSize - blockHeadSize - 2) c, 0⟩

theorem filledBlock_full (seqNo : ℕ) (c : UInt8) : FullBlock (filledBlock seqNo c) :=
  ⟨rfl, le_rfl, List.length_replicate⟩

theorem filledBlock_ne {k : ℕ} (h0 : 0 < k) (hk : k < sectorsPerBlock) :
    ¬ SameBehind k (filledBlock 0 1) (filledBlock 0 2) ∧ ¬ SameBefore k (filledBlock 0 1) (filledBlock 0 2) := by
  have hb : 0 < bodyBytes k ∧ bodyBytes k < blockSize - blockHeadSize - 2 := by
    unfold sectorsPerBlock blockSize bytesPerSector at hk
    unfold bodyBytes bytesPerSector blockHeadSize blockSize
    omega
  unfold SameBehind SameBefore filledBlock
  simp only [List.drop_replicate, List.take_replicate, List.replicate_inj]
  refine ⟨?_, ?_⟩
  · rintro ⟨-, h | h⟩
    · omega
    · exact absurd h (by decide)
  · rintro ⟨-, -, -, -, h | h⟩
    · omega
    · exact absurd h (by decide)

theorem torn_write_exact_second : (∀ s', readAfterCrash (filledBlock 0 1) (filledBlock 1 2) 5 indexMagic 4
      ⟨fun _ => zeroBlock, zeroBlock⟩ = .ok () s' →
        s'.blk = complete (filledBlock 0 1) ∨ s'.blk = complete (filledBlock 1 2)) ↔
      indexMagic ≠ indexMagic ∨ blockSize < blockHeadSize ∨ 0 ≠ 1 ∨ SameBehind 4 (filledBlock 0 1) (filledBlock 1 2) ∨
        SameBefore 4 (filledBlock 0 1) (filledBlock 1 2) :=
  torn_write_exact (filledBlock_full 0 1) (filledBlock_full 1 2) (by decide) (by decide)

/-- Two fresh blocks: a block is freed and its number used for a new tree. Whatever the sector the second
write is cut off at, the read returns half of each. -/
theorem torn_write_fresh : Given (filledBlock 0 1) ∧ Given (filledBlock 0 2) ∧ ∀ k, 0 < k → k < sectorsPerBlock →
    ∃ s', readAfterCrash (filledBlock 0 1) (filledBlock 0 2) 5 indexMagic k ⟨fun _ => zeroBlock, zeroBlock⟩ =
      .ok () s' ∧ s'.blk ≠ complete (filledBlock 0 1) ∧ s'.blk ≠ complete (filledBlock 0 2) := by
  refine ⟨.init _ rfl, .init _ rfl, fun k h0 hk => ?_⟩
  obtain ⟨hbehind, hbefore⟩ := filledBlock_ne h0 hk
  refine ⟨_, (readAfterCrash_ok (filledBlock_full 0 1) (filledBlock_full 0 2) h0 hk).mpr ⟨rfl, ?_, rfl, rfl⟩, ?_, ?_⟩
  · decide
  · intro heq
    exact hbefore ((mixed_eq_old (filledBlock_full 0 1) (filledBlock_full 0 2) rfl).mp heq)
  · intro heq
    exact hbehind (mixed_eq_new.mp heq)

end Crash

end IndexFs.Block
