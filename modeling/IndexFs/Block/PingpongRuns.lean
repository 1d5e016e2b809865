import IndexFs.Block.Pingpong

/-!
# What a read of the superblock returns

A history starts with `ofs_update_block_pingpong_init` and goes on with updates,
updates whose write fails, and reloads. `Log` carries along the block of the last
successful update and its slot.

* `LogOp.Meets`: the condition on one call and the history before it.
* `Log.Inv.leads`: in such a history the slots lead to the last successful update.
* `readsLast_of_history`: if every call meets the condition, every read returns the
  content of the last successful update, for any number of calls and across the wrap
  of `seq_no`.
* `gap_reads_old`: a failed write followed by a successful one is not read back.
-/

namespace IndexFs.Block

/-! ## Histories -/

/-- A superblock of `SUPER_BLOCK_SIZE` bytes as `init_super_block` makes it. -/
structure IsSuperBlock (b : BlockImage) : Prop where
  blkId : b.blkId = superBlockId
  allocSize : b.allocSize = superBlockSize
  realSize : b.realSize = superBlockSize
  seqNo : b.seqNo < 2 ^ 16
  body : b.body.length = bodySize

/-- All fields but `seq_no` and `fixup`. -/
def content (b : BlockImage) : BlockImage := { b with seqNo := 0, fixup := 0 }

/-- The container with the superblock of the last successful update and its slot. -/
structure Log where
  pp : PingPong
  last : BlockImage
  slot : ℕ

/-- A call: the superblock `c` is brought up to date and written, or read back. -/
inductive LogOp
  | update (c : BlockImage) (o : WriteOutcome)
  | reload

/-- The calls a history may make: a superblock that keeps its number, and torn
bytes that are not a correct block. -/
def LogOp.Allowed (l : Log) : LogOp → Prop
  | .update c o => IsSuperBlock c ∧ c.seqNo = l.pp.sb.seqNo ∧
      ∀ g, o = .torn g → ¬ Correct superBlockId superBlockSize g
  | .reload => True

/-- One call. -/
def Log.apply (l : Log) : LogOp → Log
  | .update c o =>
    match ofsUpdateBlockPingpong o { l.pp with sb := c } with
    | .ok _ pp => ⟨pp, c, slotOf c⟩
    | .error _ pp => { l with pp := pp }
  | .reload => { l with pp := finalState (ofsReadBlockPingpong superBlockId superBlockSize) l.pp }

/-- The history after `ofs_update_block_pingpong_init` of `sb`. -/
def Log.start (sb : BlockImage) : Log :=
  ⟨finalState (ofsUpdateBlockPingpongInit true) ⟨fun _ => zeroBlock, sb⟩, sb, slotOf sb⟩

/-- A read returns the content of the last successful update. -/
def Log.ReadsLast (l : Log) : Prop :=
  Ends (ofsReadBlockPingpong superBlockId superBlockSize) l.pp
    (fun _ pp => content pp.sb = content l.last) (fun _ _ => False)

/-- The slots lead to slot `k`, for the superblock. -/
abbrev SuperLeads (disk : ℕ → BlockImage) (k : ℕ) : Prop :=
  Leads disk superBlockId superBlockSize k

/-- The superblock in memory carries the number after the last successful update: no update has failed
since then, or it was read back after the last that did. -/
def Log.InStep (l : Log) : Prop := l.pp.sb.seqNo = (l.last.seqNo + 1) % 2 ^ 16

/-- No correct block behind slot `k` has the number that its slot gets in the row in which `k` has `n`. -/
def Unclaimed (disk : ℕ → BlockImage) (k n : ℕ) : Prop :=
  ∀ i, k < i → i < slotCount → Correct superBlockId superBlockSize (disk i) → (disk i).seqNo + k ≠ n + i

/-- The condition. A successful update starts from a memory in step with the disk, or begins a new row in
slot 0. Torn bytes lie behind the last update, or in slot 0 behind slot 7, where they keep a block number. -/
def LogOp.Meets (l : Log) : LogOp → Prop
  | .update c .written => l.InStep ∨ slotOf c = 0 ∧ Unclaimed l.pp.disk 0 c.seqNo
  | .update _ .failed => True
  | .update c (.torn g) => l.slot < slotOf c ∨ l.slot = 7 ∧ slotOf c = 0 ∧ g.blkId ≠ 0
  | .reload => True

/-- A call that meets the condition. -/
def LogStep (l l' : Log) : Prop := ∃ op : LogOp, op.Allowed l ∧ op.Meets l ∧ l' = l.apply op

/-! ## The calls on a superblock -/

theorem IsSuperBlock.check {c : BlockImage} (h : IsSuperBlock c) : checkBlock c = .ok () := by
  unfold checkBlock
  rw [if_neg (by rw [h.realSize, h.allocSize]; decide)]

theorem IsSuperBlock.slotOf_eq {c : BlockImage} (h : IsSuperBlock c) : slotOf c = c.seqNo % slotCount := by
  unfold slotOf
  rw [h.allocSize]
  rfl

/-- A written superblock is a correct block. -/
theorem IsSuperBlock.correct {c : BlockImage} (h : IsSuperBlock c) :
    Correct superBlockId superBlockSize (assembleBlock c) := by
  refine ⟨?_, rfl⟩
  unfold verifyBlock assembleBlock
  rw [if_neg (by simp [h.blkId]), if_neg (by simp [h.allocSize]),
    if_neg (by simp only [h.realSize, h.allocSize]; decide)]

/-- Copying a superblock copies all of it. -/
theorem copyReal_superBlock {dst src : BlockImage} (hreal : src.realSize = superBlockSize)
    (halloc : src.allocSize = superBlockSize) (hsrc : src.body.length = bodySize)
    (hdst : dst.body.length = bodySize) : copyReal dst src = src := by
  have htake : src.body.take (src.realSize - blockHeadSize) = src.body :=
    List.take_of_length_le (by rw [hsrc, hreal]; decide)
  have hdrop : dst.body.drop (src.realSize - blockHeadSize) = [] :=
    List.drop_eq_nil_of_le (by rw [hdst, hreal]; decide)
  unfold copyReal
  rw [if_pos (hreal.trans halloc.symm), htake, hdrop, List.append_nil]

/-- The superblock in memory after a call that assembled `c`. -/
def advance (c : BlockImage) : BlockImage :=
  { c with fixup := c.foot, seqNo := (c.seqNo + 1) % 2 ^ 16 }

theorem IsSuperBlock.advance {c : BlockImage} (h : IsSuperBlock c) : IsSuperBlock (advance c) where
  blkId := h.blkId
  allocSize := h.allocSize
  realSize := h.realSize
  seqNo := Nat.mod_lt _ (by norm_num)
  body := h.body

/-- An update puts its outcome into the slot and advances the number in memory. -/
theorem ofsUpdateBlockPingpong_eq {c : BlockImage} (h : IsSuperBlock c) (disk : ℕ → BlockImage)
    (o : WriteOutcome) :
    ofsUpdateBlockPingpong o ⟨disk, c⟩ =
      if o = .written then .ok () ⟨afterWrite disk (assembleBlock c) o, advance c⟩
      else .error .write ⟨afterWrite disk (assembleBlock c) o, advance c⟩ := by
  unfold ofsUpdateBlockPingpong finishUpdate
  simp only [bind, EStateM.bind, get, getThe, MonadStateOf.get, EStateM.get, h.check, fromExcept, pure,
    EStateM.pure, modify, modifyGet, MonadStateOf.modifyGet, EStateM.modifyGet,
    fixupBlock_assembleBlock, Block.advance]
  by_cases ho : o = .written
  · simp [ho, EStateM.pure]
  · simp [ho, throw, throwThe, MonadExceptOf.throw, EStateM.throw]

theorem start_pp {sb : BlockImage} (h : IsSuperBlock sb) :
    (Log.start sb).pp =
      ⟨Function.update (fun _ => zeroBlock) (slotOf sb) (assembleBlock sb), advance sb⟩ := by
  have hcopy : copyReal zeroBlock (assembleBlock sb) = assembleBlock sb :=
    copyReal_superBlock h.realSize h.allocSize h.body (by simp [zeroBlock])
  simp only [Log.start, finalState, ofsUpdateBlockPingpongInit, finishUpdate, bind, EStateM.bind, get,
    getThe, MonadStateOf.get, EStateM.get, h.check, fromExcept, pure, EStateM.pure, modify, modifyGet,
    MonadStateOf.modifyGet, EStateM.modifyGet, fixupBlock_assembleBlock, Block.advance, hcopy]
  rfl

/-- A read returns the block in the slot to which the slots lead, one number further. -/
theorem ofsReadBlockPingpong_eq {pp : PingPong} {c : BlockImage} {k : ℕ} (hc : IsSuperBlock c)
    (hmemory : IsSuperBlock pp.sb) (hk : k < slotCount) (hstored : pp.disk k = assembleBlock c)
    (hleads : SuperLeads pp.disk k) :
    ofsReadBlockPingpong superBlockId superBlockSize pp = .ok () { pp with sb := Block.advance c } := by
  have hfound : getLastCorrectBlock pp.disk superBlockId superBlockSize (blockSize / superBlockSize) = some k :=
    (getLastCorrectBlock_eq_some_iff (by decide)).mpr ⟨hk, hstored ▸ hc.correct, hleads⟩
  have hcopy : copyReal pp.sb (Block.advance c) = Block.advance c :=
    copyReal_superBlock hc.realSize hc.allocSize hc.body hmemory.body
  unfold ofsReadBlockPingpong
  simp only [bind, EStateM.bind, get, getThe, MonadStateOf.get, EStateM.get, hfound, hstored,
    fixupBlock_assembleBlock, fromExcept, pure, EStateM.pure]
  exact congrArg (fun b => EStateM.Result.ok () { pp with sb := b }) hcopy

/-! ## The invariant -/

/-- The slots hold one row of numbers up to the last update, and behind it nothing that goes on with the
row. Behind slot 7 the next row may begin with a damaged block. -/
structure Log.Inv (l : Log) : Prop where
  last : IsSuperBlock l.last
  memory : IsSuperBlock l.pp.sb
  slot : l.slot = l.last.seqNo % slotCount
  stored : l.pp.disk l.slot = assembleBlock l.last
  nonzero : ∀ i ≤ l.slot, (l.pp.disk i).blkId ≠ 0
  row : ∀ i ≤ l.slot, (l.pp.disk i).seqNo + l.slot = l.last.seqNo + i ∨
    i = 0 ∧ l.slot = 7 ∧ ¬ Correct superBlockId superBlockSize (l.pp.disk 0)
  behind : Unclaimed l.pp.disk l.slot l.last.seqNo

/-- The numbers of a run count up from slot 0. -/
theorem RunEnds.seqNo {buf : ℕ → BlockImage} {m : ℕ} (h : RunEnds buf m) {i : ℕ} (hi : i ≤ m) :
    (buf i).seqNo = (buf 0).seqNo + i := by
  induction i with
  | zero => rfl
  | succ i ih =>
    have hnext := h.consecutive i (by omega)
    have hbefore := ih (by omega)
    omega

theorem Log.Inv.slot_lt {l : Log} (h : l.Inv) : l.slot < slotCount := by
  rw [h.slot]
  exact Nat.mod_lt _ (by norm_num)

/-- From the end of the run the reader comes back to the last update. -/
theorem Log.Inv.leads {l : Log} (h : l.Inv) : SuperLeads l.pp.disk l.slot := by
  have hslot := h.slot_lt
  obtain ⟨m, hm, hrun⟩ := exists_runEnds (h.nonzero 0 (Nat.zero_le _))
  rcases h.row 0 (Nat.zero_le _) with h0 | ⟨-, h7, hbad⟩
  · -- the whole row belongs to the run
    have hlong : l.slot ≤ m := by
      by_contra hshort
      rcases h.row (m + 1) (by omega) with hnext | ⟨hzero, -⟩
      · have hend := hrun.seqNo le_rfl
        rcases hrun.stop (by omega) with hzero | hgap
        · exact h.nonzero (m + 1) (by omega) hzero
        · omega
      · omega
    refine ⟨m - l.slot, by omega, ?_, fun t h1 h2 => ?_⟩
    · rwa [show l.slot + (m - l.slot) = m by omega, Nat.mod_eq_of_lt hm]
    · rw [Nat.mod_eq_of_lt (by omega)]
      refine ⟨hrun.nonzero _ (by omega), fun hcorrect => h.behind _ (by omega) (by omega) hcorrect ?_⟩
      have hseq := hrun.seqNo (show l.slot + t ≤ m by omega)
      omega
  · by_cases hmatch : (l.pp.disk 0).seqNo + l.slot = l.last.seqNo
    · -- the damaged block has the number of the one it replaced
      have hm7 : m = 7 := by
        by_contra hne
        unfold slotCount at hm
        rcases h.row (m + 1) (by omega) with hnext | ⟨hzero, -⟩
        · have hend := hrun.seqNo le_rfl
          rcases hrun.stop (by unfold slotCount; omega) with hzero | hgap
          · exact h.nonzero (m + 1) (by omega) hzero
          · omega
        · omega
      refine ⟨0, by norm_num, ?_, fun t h1 h2 => by omega⟩
      rwa [Nat.add_zero, Nat.mod_eq_of_lt hslot, h7, ← hm7]
    · have hm0 : m = 0 := by
        by_contra hne
        rcases h.row 1 (by omega) with hnext | ⟨hzero, -⟩
        · have hfirst := hrun.seqNo (show 1 ≤ m by omega)
          omega
        · omega
      refine ⟨1, by norm_num, ?_, fun t h1 h2 => ?_⟩
      · subst hm0
        rwa [h7]
      · obtain rfl : t = 1 := by omega
        rw [h7]
        exact ⟨h.nonzero 0 (Nat.zero_le _), hbad⟩

/-- From the invariant a read returns the last update, one number further. -/
theorem Log.Inv.read {l : Log} (h : l.Inv) :
    ofsReadBlockPingpong superBlockId superBlockSize l.pp =
      .ok () { l.pp with sb := Block.advance l.last } :=
  ofsReadBlockPingpong_eq h.last h.memory h.slot_lt h.stored h.leads

theorem Log.Inv.readsLast {l : Log} (h : l.Inv) : l.ReadsLast := by
  unfold Log.ReadsLast
  rw [ends_of_ok h.read]
  rfl

theorem not_correct_zeroBlock : ¬ Correct superBlockId superBlockSize zeroBlock := fun h => by
  have hv := h.1
  unfold verifyBlock at hv
  rw [if_pos (by decide)] at hv
  cases hv

theorem Log.Inv.start {sb : BlockImage} (h : IsSuperBlock sb) (h0 : sb.seqNo % slotCount = 0) :
    (Log.start sb).Inv := by
  have hslot : slotOf sb = 0 := h.slotOf_eq.trans h0
  have hpp := start_pp h
  rw [hslot] at hpp
  refine ⟨h, hpp ▸ h.advance, h.slotOf_eq, ?_, fun i hi => ?_, fun i hi => .inl ?_, fun i hi _ hcorrect => ?_⟩
  · change (Log.start sb).pp.disk (slotOf sb) = assembleBlock sb
    rw [hpp, hslot]
    rfl
  · obtain rfl : i = 0 := Nat.le_zero.mp (hslot ▸ hi)
    rw [hpp]
    change sb.blkId ≠ 0
    rw [h.blkId]
    decide
  · obtain rfl : i = 0 := Nat.le_zero.mp (hslot ▸ hi)
    rw [hpp]
    change sb.seqNo + slotOf sb = sb.seqNo + 0
    rw [hslot]
  · change slotOf sb < i at hi
    rw [hpp] at hcorrect
    change Correct _ _ (Function.update (fun _ => zeroBlock) 0 (assembleBlock sb) i) at hcorrect
    rw [Function.update_of_ne (by omega)] at hcorrect
    exact absurd hcorrect not_correct_zeroBlock

/-! ## One call -/

/-- A successful update. -/
theorem Log.Inv.written {l : Log} (h : l.Inv) {c : BlockImage} (hc : IsSuperBlock c)
    (hseq : c.seqNo = l.pp.sb.seqNo) (hmeets : LogOp.Meets l (.update c .written)) :
    (⟨⟨Function.update l.pp.disk (slotOf c) (assembleBlock c), Block.advance c⟩, c, slotOf c⟩ : Log).Inv := by
  have hslot := h.slot
  have hlast := h.last.seqNo
  have hslotc := hc.slotOf_eq
  -- the update goes on with the row, or begins a new one
  have hcases : (l.slot < 7 ∧ c.seqNo = l.last.seqNo + 1 ∧ slotOf c = l.slot + 1) ∨
      slotOf c = 0 ∧ Unclaimed l.pp.disk 0 c.seqNo := by
    rcases hmeets with hstep | hnew
    · have hnum : c.seqNo = (l.last.seqNo + 1) % 2 ^ 16 := hseq.trans hstep
      by_cases h7 : l.slot < 7
      · refine .inl ⟨h7, ?_⟩
        unfold slotCount at *
        omega
      · have hslot7 : l.slot = 7 := by
          have := h.slot_lt
          unfold slotCount at this
          omega
        refine .inr ⟨?_, fun i hi hi8 _ => ?_⟩
        · unfold slotCount at *
          omega
        · unfold slotCount at *
          rcases h.row i (by omega) with hrow | ⟨hzero, -⟩
          · omega
          · omega
    · exact .inr hnew
  refine ⟨hc, hc.advance, hslotc, Function.update_self .., fun i hi => ?_, fun i hi => .inl ?_, fun i hi hi8 hcorrect => ?_⟩
  · change i ≤ slotOf c at hi
    change (Function.update l.pp.disk (slotOf c) (assembleBlock c) i).blkId ≠ 0
    by_cases hi' : i = slotOf c
    · rw [hi', Function.update_self]
      change c.blkId ≠ 0
      rw [hc.blkId]
      decide
    · rw [Function.update_of_ne hi']
      exact h.nonzero i (by omega)
  · change i ≤ slotOf c at hi
    change (Function.update l.pp.disk (slotOf c) (assembleBlock c) i).seqNo + slotOf c = c.seqNo + i
    by_cases hi' : i = slotOf c
    · rw [hi', Function.update_self]
      rfl
    · rw [Function.update_of_ne hi']
      rcases h.row i (by omega) with hrow | ⟨-, h7, -⟩
      · omega
      · omega
  · change slotOf c < i at hi
    change Correct _ _ (Function.update l.pp.disk (slotOf c) (assembleBlock c) i) at hcorrect
    change (Function.update l.pp.disk (slotOf c) (assembleBlock c) i).seqNo + slotOf c ≠ c.seqNo + i
    rw [Function.update_of_ne (by omega)] at hcorrect ⊢
    rcases hcases with ⟨-, hnum, hnext⟩ | ⟨hzero, hnew⟩
    · have hbehind := h.behind i (by omega) hi8 hcorrect
      omega
    · have hunclaimed := hnew i (by omega) hi8 hcorrect
      omega

/-- Torn bytes. -/
theorem Log.Inv.torn {l : Log} (h : l.Inv) {c g : BlockImage} (hc : IsSuperBlock c)
    (hg : ¬ Correct superBlockId superBlockSize g) (hmeets : LogOp.Meets l (.update c (.torn g))) :
    ({ l with pp := ⟨Function.update l.pp.disk (slotOf c) g, Block.advance c⟩ } : Log).Inv := by
  have hother : ∀ i, i ≠ slotOf c → Function.update l.pp.disk (slotOf c) g i = l.pp.disk i := fun i hi =>
    Function.update_of_ne hi ..
  have hne : l.slot ≠ slotOf c := by
    rcases hmeets with hlt | ⟨h7, h0, -⟩
    · exact hlt.ne
    · omega
  refine ⟨h.last, hc.advance, h.slot, (hother _ hne).trans h.stored, fun i hi => ?_, fun i hi => ?_,
    fun i hi hi8 hcorrect => ?_⟩
  · change (Function.update l.pp.disk (slotOf c) g i).blkId ≠ 0
    by_cases hi' : i = slotOf c
    · rw [hi', Function.update_self]
      rcases hmeets with hlt | ⟨-, -, hid⟩
      · change i ≤ l.slot at hi
        omega
      · exact hid
    · rw [hother i hi']
      exact h.nonzero i hi
  · change (Function.update l.pp.disk (slotOf c) g i).seqNo + l.slot = l.last.seqNo + i ∨
      i = 0 ∧ l.slot = 7 ∧ ¬ Correct _ _ (Function.update l.pp.disk (slotOf c) g 0)
    by_cases hi' : i = slotOf c
    · rcases hmeets with hlt | ⟨h7, h0, -⟩
      · change i ≤ l.slot at hi
        omega
      · refine .inr ⟨hi'.trans h0, h7, ?_⟩
        rwa [h0, Function.update_self]
    · rw [hother i hi']
      rcases h.row i hi with hrow | ⟨rfl, h7, hbad⟩
      · exact .inl hrow
      · exact .inr ⟨rfl, h7, by rwa [hother 0 hi']⟩
  · change Correct _ _ (Function.update l.pp.disk (slotOf c) g i) at hcorrect
    change (Function.update l.pp.disk (slotOf c) g i).seqNo + l.slot ≠ l.last.seqNo + i
    by_cases hi' : i = slotOf c
    · rw [hi', Function.update_self] at hcorrect
      exact absurd hcorrect hg
    · rw [hother i hi'] at hcorrect ⊢
      exact h.behind i hi hi8 hcorrect

/-- A call that meets the condition keeps the invariant. -/
theorem Log.Inv.apply {l : Log} (h : l.Inv) {op : LogOp} (hop : op.Allowed l) (hmeets : op.Meets l) :
    (l.apply op).Inv := by
  cases op with
  | reload =>
    unfold Log.apply finalState
    rw [h.read]
    exact ⟨h.last, h.last.advance, h.slot, h.stored, h.nonzero, h.row, h.behind⟩
  | update c o =>
    obtain ⟨hc, hseq, htorn⟩ := hop
    unfold Log.apply
    simp only [ofsUpdateBlockPingpong_eq hc]
    cases o with
    | written => exact h.written hc hseq hmeets
    | failed => exact ⟨h.last, hc.advance, h.slot, h.stored, h.nonzero, h.row, h.behind⟩
    | torn g => exact h.torn hc (htorn g rfl) hmeets

/-- If every call of a history meets the condition, every read returns the
content of the last successful update. -/
theorem readsLast_of_history {sb : BlockImage} (h : IsSuperBlock sb) (h0 : sb.seqNo % slotCount = 0)
    {l : Log} (hrun : Relation.ReflTransGen LogStep (Log.start sb) l) : l.ReadsLast := by
  have hinv : l.Inv := by
    induction hrun with
    | refl => exact Log.Inv.start h h0
    | tail _ hstep ih =>
      obtain ⟨op, hop, hmeets, rfl⟩ := hstep
      exact ih.apply hop hmeets
  exact hinv.readsLast

/-- A superblock with number `n`, told apart by its first byte behind the head. -/
def sampleSuper (n : UInt8) : BlockImage :=
  ⟨superBlockId, superBlockSize, superBlockSize, n.toNat, 0, n :: List.replicate (bodySize - 1) 0, 0xAA55⟩

theorem isSuperBlock_sample (n : UInt8) : IsSuperBlock (sampleSuper n) where
  blkId := rfl
  allocSize := rfl
  realSize := rfl
  seqNo := lt_of_lt_of_le n.toNat_lt (by norm_num)
  body := by
    simp only [sampleSuper, List.length_cons, List.length_replicate]
    rfl

/-- A write that fails, a reload, a write that succeeds and one that leaves bytes without a block: the
second write is read back. -/
theorem readsLast_of_history_sample :
    let l₁ := (Log.start (sampleSuper 0)).apply (.update (sampleSuper 1) .failed)
    let l₂ := l₁.apply .reload
    let l₃ := l₂.apply (.update (sampleSuper 1) .written)
    (l₃.apply (.update (sampleSuper 2) (.torn zeroBlock))).ReadsLast := by
  intro l₁ l₂ l₃
  have h₁ : LogStep (Log.start (sampleSuper 0)) l₁ :=
    ⟨.update (sampleSuper 1) .failed, ⟨isSuperBlock_sample 1, rfl, by simp⟩, trivial, rfl⟩
  have h₂ : LogStep l₁ l₂ := ⟨.reload, trivial, trivial, rfl⟩
  have h₃ : LogStep l₂ l₃ :=
    ⟨.update (sampleSuper 1) .written, ⟨isSuperBlock_sample 1, rfl, by simp⟩, .inl rfl, rfl⟩
  have h₄ : LogStep l₃ (l₃.apply (.update (sampleSuper 2) (.torn zeroBlock))) := by
    refine ⟨.update (sampleSuper 2) (.torn zeroBlock), ⟨isSuperBlock_sample 2, rfl, fun g hg => ?_⟩,
      .inl (by decide : 1 < 2), rfl⟩
    cases hg
    exact not_correct_zeroBlock
  exact readsLast_of_history (isSuperBlock_sample 0) rfl
    ((((Relation.ReflTransGen.single h₁).tail h₂).tail h₃).tail h₄)

/-- A write that fails, then one that succeeds: the read stops before the slot
the first one skipped and returns the superblock of the start. -/
theorem gap_reads_old :
    let l₀ := Log.start (sampleSuper 0)
    let l₁ := l₀.apply (.update (sampleSuper 1) .failed)
    let l₂ := l₁.apply (.update (sampleSuper 2) .written)
    LogOp.Allowed l₀ (.update (sampleSuper 1) .failed) ∧
      LogOp.Allowed l₁ (.update (sampleSuper 2) .written) ∧ l₂.last = sampleSuper 2 ∧
      ¬ l₂.ReadsLast := by
  intro l₀ l₁ l₂
  have h₀ : l₀.pp = _ := start_pp (isSuperBlock_sample 0)
  have h₁ : l₁ = { l₀ with pp := ⟨l₀.pp.disk, advance (sampleSuper 1)⟩ } := by
    change Log.apply _ _ = _
    simp only [Log.apply, ofsUpdateBlockPingpong_eq (isSuperBlock_sample 1)]
    rfl
  have h₂ : l₂ = ⟨⟨Function.update l₀.pp.disk 2 (assembleBlock (sampleSuper 2)),
      advance (sampleSuper 2)⟩, sampleSuper 2, 2⟩ := by
    change Log.apply l₁ _ = _
    rw [h₁]
    simp only [Log.apply, ofsUpdateBlockPingpong_eq (isSuperBlock_sample 2)]
    rfl
  refine ⟨⟨isSuperBlock_sample 1, ?_, by simp⟩, ⟨isSuperBlock_sample 2, ?_, by simp⟩, ?_, ?_⟩
  · rw [h₀]
    rfl
  · rw [h₁]
    rfl
  · rw [h₂]
  · -- slot 1 was never written, so the slots still lead to slot 0
    have hread : ofsReadBlockPingpong superBlockId superBlockSize l₂.pp =
        .ok () { l₂.pp with sb := advance (sampleSuper 0) } := by
      rw [h₂, h₀]
      refine ofsReadBlockPingpong_eq (k := 0) (isSuperBlock_sample 0) (isSuperBlock_sample 2).advance (by norm_num)
        rfl ⟨0, by norm_num, ⟨fun i hi => ?_, fun i hi => absurd hi (Nat.not_lt_zero i), fun _ => .inl rfl⟩,
          fun t h1 h2 => by omega⟩
      rw [Nat.le_zero.mp hi]
      decide
    unfold Log.ReadsLast
    rw [ends_of_ok hread, h₂]
    intro hsame
    change content (advance (sampleSuper 0)) = content (sampleSuper 2) at hsame
    have hbody : (content (advance (sampleSuper 0))).body = (content (sampleSuper 2)).body := by
      rw [hsame]
    change (sampleSuper 0).body = (sampleSuper 2).body at hbody
    exact absurd (List.cons.inj hbody).1 (by decide)

end IndexFs.Block
