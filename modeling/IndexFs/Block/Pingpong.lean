import IndexFs.Basic

/-!
# Block framing and the ping-pong superblock

`object_system/ofs_block_rw.c` (lines 42–107 and 187–393). The superblock is one
of eight 512-byte slots of block 0. A write goes to the slot `seq_no % 8` and
advances `seq_no`, whether the disk took it or not; a read scans the slots for
the last of a run of consecutive numbers.

What the disk does with a write is a parameter (`WriteOutcome`). Reads of the
block succeed.

Results:

* `getLastCorrectBlock_eq_some_iff`: the reader returns slot `k` exactly when
  `k` is a correct block and the slots lead to it.
-/

namespace IndexFs.Block

/-- A block of `alloc_size` bytes: the five fields of `block_head_t`, the bytes
behind them, and the last two bytes, which `assemble_block` replaces. -/
structure BlockImage where
  blkId : ℕ
  allocSize : ℕ
  realSize : ℕ
  seqNo : ℕ
  fixup : ℕ
  body : Bytes
  foot : ℕ
  deriving DecidableEq, Repr

/-- The number of bytes between the head and the foot of a 512-byte block. -/
def bodySize : ℕ := superBlockSize - blockHeadSize - 2

/-- `memset(buf, 0, block_size)` as seen through one slot. -/
def zeroBlock : BlockImage := ⟨0, 0, 0, 0, 0, List.replicate bodySize 0, 0⟩

/-- `memcpy(dst, src, src->real_size)`: bytes of `dst` behind that stay. -/
def copyReal (dst src : BlockImage) : BlockImage :=
  { src with
    body := src.body.take (src.realSize - blockHeadSize) ++ dst.body.drop (src.realSize - blockHeadSize)
    foot :=
      if src.realSize = src.allocSize then src.foot
      else if src.realSize + 1 = src.allocSize then src.foot % 256 + dst.foot / 256 * 256
      else dst.foot }

/-! ## Framing -/

/-- `assemble_block` (lines 42–55), behind its `ASSERT`. -/
def assembleBlock (blk : BlockImage) : BlockImage :=
  { blk with fixup := blk.foot, foot := blk.seqNo }

/-- `fixup_block` (lines 57–80). -/
def fixupBlock (blk : BlockImage) : Except ErrorCode BlockImage :=
  if blk.foot = blk.seqNo then
    .ok { blk with foot := blk.fixup, seqNo := (blk.seqNo + 1) % 2 ^ 16 }
  else .error .invalidObject

theorem fixupBlock_assembleBlock (c : BlockImage) :
    fixupBlock (assembleBlock c) = .ok { c with fixup := c.foot, seqNo := (c.seqNo + 1) % 2 ^ 16 } :=
  if_pos rfl

/-- `verify_block` (lines 82–107). -/
def verifyBlock (blk : BlockImage) (blkId allocSize : ℕ) : Except ErrorCode Unit :=
  if blk.blkId ≠ blkId then .error .invalidObject
  else if blk.allocSize ≠ allocSize then .error .invalidObject
  else if blk.realSize > blk.allocSize ∨ blk.realSize < blockHeadSize then .error .invalidObject
  else .ok ()

/-- `check_block` (lines 168–185). -/
def checkBlock (blk : BlockImage) : Except ErrorCode Unit :=
  if blk.realSize > blk.allocSize ∨ blk.allocSize > blockSize then .error .invalidObject
  else .ok ()

/-! ## Writing -/

/-- What becomes of a write: it reaches the disk, it fails and leaves the sectors
alone, or it fails and leaves other bytes behind. -/
inductive WriteOutcome
  | written
  | failed
  | torn (garbage : BlockImage)
  deriving DecidableEq, Repr

/-- The slots of block 0 and the superblock in memory, `ct->sb`. -/
structure PingPong where
  disk : ℕ → BlockImage
  sb : BlockImage

/-- The slot a write goes to: `blk->seq_no % (block_size / blk->alloc_size)`. -/
def slotOf (blk : BlockImage) : ℕ := blk.seqNo % (blockSize / blk.allocSize)

/-- The slots of block 0 after the write of `blk` to its slot. -/
def afterWrite (disk : ℕ → BlockImage) (blk : BlockImage) : WriteOutcome → ℕ → BlockImage
  | .written => Function.update disk (slotOf blk) blk
  | .failed => disk
  | .torn garbage => Function.update disk (slotOf blk) garbage

/-- The end that `ofs_update_block_pingpong` and its `_init` share: `fixup_block`
on the block in memory, then the check of the number of bytes written. -/
def finishUpdate (written : Bool) : EStateM ErrorCode PingPong Unit := do
  let blk ← fromExcept (fixupBlock (← get).sb)
  modify fun s => { s with sb := blk }
  if written then return () else throw .write

/-- `ofs_update_block_pingpong_init` (lines 187–235): the slots of the buffer are
zero but for one. If the write fails the block keeps its old slots. -/
def ofsUpdateBlockPingpongInit (written : Bool) : EStateM ErrorCode PingPong Unit := do
  fromExcept (checkBlock (← get).sb)
  modify fun s =>
    let blk := assembleBlock s.sb
    let buf := Function.update (fun _ => zeroBlock) (slotOf blk) (copyReal zeroBlock blk)
    { disk := if written then buf else s.disk, sb := blk }
  finishUpdate written

/-- `ofs_update_block_pingpong` (lines 237–274). -/
def ofsUpdateBlockPingpong (o : WriteOutcome) : EStateM ErrorCode PingPong Unit := do
  fromExcept (checkBlock (← get).sb)
  modify fun s =>
    let blk := assembleBlock s.sb
    { disk := afterWrite s.disk blk o, sb := blk }
  finishUpdate (decide (o = .written))

/-! ## Reading -/

/-- The first loop of `get_last_correct_block` (lines 287–304): the last slot of
the run of nonzero ids with consecutive numbers. `prev_seq_no + 1` is an `int`. -/
def scanSlots (buf : ℕ → BlockImage) : (n i prevI prevSeqNo : ℕ) → ℕ
  | 0, _, prevI, _ => prevI
  | n + 1, i, prevI, prevSeqNo =>
    if (buf i).blkId = 0 then prevI
    else if i ≠ 0 ∧ prevSeqNo + 1 ≠ (buf i).seqNo then prevI
    else scanSlots buf n (i + 1) i (buf i).seqNo

/-- `verify_block` and `fixup_block` both accept the slot. -/
def Correct (blkId allocSize : ℕ) (blk : BlockImage) : Prop :=
  verifyBlock blk blkId allocSize = .ok () ∧ blk.foot = blk.seqNo

instance (blkId allocSize : ℕ) (blk : BlockImage) : Decidable (Correct blkId allocSize blk) := by
  unfold Correct
  infer_instance

/-- The second loop (lines 306–336): the first correct slot from `prev_i`
downwards, round the end. The result is the slot `blk` points to. -/
def fallBack (buf : ℕ → BlockImage) (blkId allocSize cnt : ℕ) : (n prevI : ℕ) → Option ℕ
  | 0, _ => none
  | n + 1, prevI =>
    if (buf prevI).blkId = 0 then none
    else if Correct blkId allocSize (buf prevI) then some prevI
    else fallBack buf blkId allocSize cnt n ((if prevI = 0 then cnt else prevI) - 1)

/-- `get_last_correct_block` (lines 276–343). -/
def getLastCorrectBlock (buf : ℕ → BlockImage) (blkId allocSize cnt : ℕ) : Option ℕ :=
  fallBack buf blkId allocSize cnt cnt (scanSlots buf cnt 0 0 0)

/-- `ofs_read_block_pingpong` (lines 345–393) into `ct->sb`; the slot it copies
has been through `fixup_block`. -/
def ofsReadBlockPingpong (blkId allocSize : ℕ) : EStateM ErrorCode PingPong Unit := do
  let s ← get
  match getLastCorrectBlock s.disk blkId allocSize (blockSize / allocSize) with
  | none => throw .invalidObject
  | some k =>
    let blk ← fromExcept (fixupBlock (s.disk k))
    set { s with sb := copyReal s.sb blk }

/-! ## What the scan finds -/

/-- The number of slots of the superblock. -/
abbrev slotCount : ℕ := 8

/-- The run of slots from 0 ends at slot `m`. -/
structure RunEnds (buf : ℕ → BlockImage) (m : ℕ) : Prop where
  nonzero : ∀ i ≤ m, (buf i).blkId ≠ 0
  consecutive : ∀ i < m, (buf i).seqNo + 1 = (buf (i + 1)).seqNo
  stop : m + 1 < slotCount → (buf (m + 1)).blkId = 0 ∨ (buf m).seqNo + 1 ≠ (buf (m + 1)).seqNo

/-- The slots lead to slot `k`: the run ends `d` slots after it, counted round
the end, and each of these is nonzero but not correct. -/
def Leads (buf : ℕ → BlockImage) (blkId allocSize k : ℕ) : Prop :=
  ∃ d < slotCount, RunEnds buf ((k + d) % slotCount) ∧
    ∀ t, 1 ≤ t → t ≤ d → (buf ((k + t) % slotCount)).blkId ≠ 0 ∧
      ¬ Correct blkId allocSize (buf ((k + t) % slotCount))

section Scan

variable {buf : ℕ → BlockImage} {blkId allocSize : ℕ}

/-- The scan, started in the middle of the run, ends where the run does. -/
theorem scanSlots_run {m : ℕ} (h : RunEnds buf m) (hm : m < slotCount) (n i : ℕ)
    (hn : i + n = slotCount) (hi : i ≤ m + 1) (hi0 : i ≠ 0) :
    scanSlots buf n i (i - 1) (buf (i - 1)).seqNo = m := by
  induction n generalizing i with
  | zero =>
    unfold scanSlots
    omega
  | succ n ih =>
    unfold scanSlots
    rcases Nat.lt_or_ge m i with hlast | hinside
    · have hi' : i = m + 1 := by omega
      subst hi'
      rcases h.stop (by omega) with hzero | hgap
      · rw [if_pos hzero, Nat.add_sub_cancel]
      · split_ifs with h1 h2
        · rw [Nat.add_sub_cancel]
        · rw [Nat.add_sub_cancel]
        · exact absurd ⟨hi0, by simpa using hgap⟩ h2
    · have hseq := h.consecutive (i - 1) (by omega)
      rw [show i - 1 + 1 = i by omega] at hseq
      rw [if_neg (h.nonzero i hinside), if_neg (by simp [hseq])]
      exact ih (i + 1) (by omega) (by omega) (by omega)

theorem scanSlots_eq {m : ℕ} (h : RunEnds buf m) (hm : m < slotCount) :
    scanSlots buf slotCount 0 0 0 = m := by
  have h0 : (buf 0).blkId ≠ 0 := h.nonzero 0 (Nat.zero_le m)
  unfold scanSlots
  rw [if_neg h0, if_neg (by simp)]
  exact scanSlots_run h hm 7 1 rfl (by omega) (by omega)

/-- If slot 0 is nonzero some run ends the scan. -/
theorem exists_runEnds (h0 : (buf 0).blkId ≠ 0) : ∃ m < slotCount, RunEnds buf m := by
  have hlongest : ∀ n < slotCount, (∃ m < slotCount, RunEnds buf m) ∨
      ((∀ i ≤ n, (buf i).blkId ≠ 0) ∧ ∀ i < n, (buf i).seqNo + 1 = (buf (i + 1)).seqNo) := by
    intro n
    induction n with
    | zero =>
      intro _
      refine .inr ⟨fun i hi => ?_, fun i hi => absurd hi (Nat.not_lt_zero i)⟩
      rwa [Nat.le_zero.mp hi]
    | succ n ih =>
      intro hn
      rcases ih (by omega) with hdone | ⟨hid, hseq⟩
      · exact .inl hdone
      · by_cases hnext : (buf (n + 1)).blkId = 0 ∨ (buf n).seqNo + 1 ≠ (buf (n + 1)).seqNo
        · exact .inl ⟨n, by omega, hid, hseq, fun _ => hnext⟩
        · rw [not_or, not_not] at hnext
          refine .inr ⟨fun i hi => ?_, fun i hi => ?_⟩
          · rcases Nat.lt_or_ge n i with h | h
            · rw [show i = n + 1 by omega]
              exact hnext.1
            · exact hid i h
          · rcases Nat.lt_or_ge i n with h | h
            · exact hseq i h
            · rw [show i = n by omega]
              exact hnext.2
  rcases hlongest 7 (by norm_num) with hdone | ⟨hid, hseq⟩
  · exact hdone
  · exact ⟨7, by norm_num, hid, hseq, fun h => absurd h (by norm_num)⟩

theorem pred_slot {k d : ℕ} (hd : 1 ≤ d) (hd8 : d < slotCount) :
    (if (k + d) % slotCount = 0 then slotCount else (k + d) % slotCount) - 1 =
      (k + (d - 1)) % slotCount := by
  unfold slotCount at *
  split_ifs <;> omega

/-- From `d` damaged slots after `k` the second loop falls back to `k`. -/
theorem fallBack_eq {k : ℕ} (hk : k < slotCount) (hnz : (buf k).blkId ≠ 0)
    (hcorrect : Correct blkId allocSize (buf k)) (d n : ℕ) (hdn : d < n) (hd : d < slotCount)
    (hdamaged : ∀ t, 1 ≤ t → t ≤ d → (buf ((k + t) % slotCount)).blkId ≠ 0 ∧
      ¬ Correct blkId allocSize (buf ((k + t) % slotCount))) :
    fallBack buf blkId allocSize slotCount n ((k + d) % slotCount) = some k := by
  induction d generalizing n with
  | zero =>
    obtain ⟨n, rfl⟩ : ∃ n', n = n' + 1 := ⟨n - 1, by omega⟩
    have hmod : (k + 0) % slotCount = k := Nat.mod_eq_of_lt hk
    unfold fallBack
    rw [hmod, if_neg hnz, if_pos hcorrect]
  | succ d ih =>
    obtain ⟨n, rfl⟩ : ∃ n', n = n' + 1 := ⟨n - 1, by omega⟩
    obtain ⟨hid, hbad⟩ := hdamaged (d + 1) (by omega) le_rfl
    unfold fallBack
    rw [if_neg hid, if_neg hbad, pred_slot (by omega) hd]
    exact ih n (by omega) (by omega) fun t h1 h2 => hdamaged t h1 (by omega)

/-- What the second loop returns is correct and lies below damaged slots only. -/
theorem fallBack_some {k m n : ℕ} (hm : m < slotCount) (hn : n ≤ slotCount)
    (h : fallBack buf blkId allocSize slotCount n m = some k) :
    k < slotCount ∧ Correct blkId allocSize (buf k) ∧ ∃ d < n, (k + d) % slotCount = m ∧
      ∀ t, 1 ≤ t → t ≤ d → (buf ((k + t) % slotCount)).blkId ≠ 0 ∧
        ¬ Correct blkId allocSize (buf ((k + t) % slotCount)) := by
  induction n generalizing m with
  | zero => simp [fallBack] at h
  | succ n ih =>
    unfold fallBack at h
    split_ifs at h with hid hcorrect hzero
    · obtain rfl := Option.some.inj h
      exact ⟨hm, hcorrect, 0, by omega, Nat.mod_eq_of_lt hm, fun t h1 h2 => by omega⟩
    all_goals
      obtain ⟨hk, hc, d, hdn, hd, hdamaged⟩ := ih (by omega) (by omega) h
      have hd' : (k + (d + 1)) % slotCount = m := by
        unfold slotCount at *
        omega
      refine ⟨hk, hc, d + 1, by omega, hd', fun t h1 h2 => ?_⟩
      rcases Nat.lt_or_ge d t with htop | hin
      · rw [show t = d + 1 by omega, hd']
        exact ⟨hid, hcorrect⟩
      · exact hdamaged t h1 hin

/-- The reader returns slot `k` exactly when `k` is correct and the slots lead to it. -/
theorem getLastCorrectBlock_eq_some_iff (hid : blkId ≠ 0) {k : ℕ} :
    getLastCorrectBlock buf blkId allocSize slotCount = some k ↔
      k < slotCount ∧ Correct blkId allocSize (buf k) ∧ Leads buf blkId allocSize k := by
  have hnonzero : ∀ {b : BlockImage}, Correct blkId allocSize b → b.blkId ≠ 0 := by
    rintro b ⟨hv, -⟩
    unfold verifyBlock at hv
    split_ifs at hv with h1
    rw [not_not] at h1
    rwa [h1]
  unfold getLastCorrectBlock
  constructor
  · intro h
    by_cases h0 : (buf 0).blkId = 0
    · have hscan : scanSlots buf slotCount 0 0 0 = 0 := by
        unfold scanSlots
        rw [if_pos h0]
      rw [hscan] at h
      unfold fallBack at h
      rw [if_pos h0] at h
      cases h
    · obtain ⟨m, hm, hrun⟩ := exists_runEnds h0
      rw [scanSlots_eq hrun hm] at h
      obtain ⟨hk, hc, d, hd, hmod, hdamaged⟩ := fallBack_some hm le_rfl h
      exact ⟨hk, hc, d, hd, hmod ▸ hrun, hdamaged⟩
  · rintro ⟨hk, hc, d, hd, hrun, hdamaged⟩
    rw [scanSlots_eq hrun (Nat.mod_lt _ (by norm_num))]
    exact fallBack_eq hk (hnonzero hc) hc d slotCount hd hd hdamaged

end Scan

end IndexFs.Block
