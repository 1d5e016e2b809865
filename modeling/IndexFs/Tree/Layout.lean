import IndexFs.Lib.Multiway
import IndexFs.Tree.Ops

/-!
# The layout of a well-formed index block

`image` is the block with given entries and child numbers, cut at one of its
children: `before` lists the entries left of the child `c`, each behind its own
child, `after` the entries from there on, each before the next child. The entry at
`posOf before` is the one that points to `c`. Lengths, the `prev_len` chain,
`real_size` and the flags all follow from the entries.

One lemma per function of `Block.lean` says what it does to an image:
`getIe_image`, `setIeVbn_image`, `insertIe_image`, `removeIe_image`,
`getMiddleIe_image`, `copyIbTail_image`, `cutIbTail_image`.
-/

namespace IndexFs.Tree

open IndexFs.Multiway

/-- A key and its value. -/
abbrev KeyValue := Bytes × Bytes

/-- The sizes that `index_insert_key` is documented to take. -/
structure KeyValueOk (kv : KeyValue) : Prop where
  key_pos : 1 ≤ kv.1.length
  key_le : kv.1.length ≤ keyMaxSize
  value_le : kv.2.length ≤ valueMaxSize

/-- The length of an entry. -/
def ieLen (large : Bool) (kv : KeyValue) : ℕ :=
  entrySize + kv.1.length + kv.2.length + if large then vbnSize else 0

/-- The length of the END entry. -/
def endLen (large : Bool) : ℕ := if large then entrySize + vbnSize else entrySize

/-- An entry; only entries of a block with children have a child number. -/
def mkIe (large : Bool) (prev vbn : ℕ) (kv : KeyValue) : IndexEntry :=
  { len := ieLen large kv, prevLen := prev, key := kv.1, value := kv.2,
    vbn := if large then vbn else 0, isNode := large, isEnd := false, isBegin := false }

def mkEnd (large : Bool) (prev vbn : ℕ) : IndexEntry :=
  { endIe large with prevLen := prev, vbn := if large then vbn else 0 }

/-- The entry that points to the child `c`, when `after` are the entries from there on. -/
def headIe (large : Bool) (prev c : ℕ) : List (KeyValue × ℕ) → IndexEntry
  | [] => mkEnd large prev c
  | (kv, _) :: _ => mkIe large prev c kv

/-- The entries behind `headIe`. -/
def tailIes (large : Bool) : List (KeyValue × ℕ) → List IndexEntry
  | [] => []
  | (kv, c) :: after => headIe large (ieLen large kv) c after :: tailIes large after

@[simp] theorem headIe_cons (large : Bool) (prev c : ℕ) (kv : KeyValue) (c' : ℕ)
    (after : List (KeyValue × ℕ)) : headIe large prev c ((kv, c') :: after) = mkIe large prev c kv := rfl

@[simp] theorem tailIes_cons (large : Bool) (kv : KeyValue) (c : ℕ) (after : List (KeyValue × ℕ)) :
    tailIes large ((kv, c) :: after) = headIe large (ieLen large kv) c after :: tailIes large after := rfl

/-- The entries before a child. -/
def iesBefore (large : Bool) : ℕ → List (ℕ × KeyValue) → List IndexEntry
  | _, [] => []
  | prev, (c, kv) :: before => mkIe large prev c kv :: iesBefore large (ieLen large kv) before

/-- The length of the last entry before a child. -/
def lastLen (large : Bool) : ℕ → List (ℕ × KeyValue) → ℕ
  | prev, [] => prev
  | _, (_, kv) :: before => lastLen large (ieLen large kv) before

/-- The length of some entries. -/
def sizeOfKvs (large : Bool) (l : List KeyValue) : ℕ := (l.map (ieLen large)).sum

/-- The bytes that a block with the given entries takes. -/
def usedBytes (large : Bool) (kvs : List KeyValue) : ℕ :=
  indexBlockSize + sizeOfKvs large kvs + endLen large

/-- The position behind `before`. -/
def posOf (large : Bool) (before : List (ℕ × KeyValue)) : ℕ :=
  indexBlockSize + sizeOfKvs large (before.map Prod.snd)

/-- The well-formed block of `alloc` bytes with the given entries and children. -/
def image (alloc : ℕ) (large : Bool) (before : List (ℕ × KeyValue)) (c : ℕ)
    (after : List (KeyValue × ℕ)) : IndexBlock :=
  { allocSize := alloc
    realSize := posOf large before + sizeOfKvs large (after.map Prod.fst) + endLen large
    large := large
    firstEntryOff := indexBlockSize
    beginEntry := beginIe
    entries := iesBefore large entrySize before ++
      headIe large (lastLen large entrySize before) c after :: tailIes large after }

section Sizes

variable {large : Bool}

theorem ieLen_pos (large : Bool) (kv : KeyValue) : 0 < ieLen large kv := by
  unfold ieLen entrySize
  omega

theorem ieLen_le {kv : KeyValue} (h : KeyValueOk kv) : ieLen large kv ≤ 1297 := by
  have h1 := h.key_le
  have h2 := h.value_le
  unfold keyMaxSize at h1
  unfold valueMaxSize at h2
  unfold ieLen entrySize vbnSize
  split_ifs <;> omega

theorem endLen_bounds (large : Bool) : 9 ≤ endLen large ∧ endLen large ≤ 17 := by
  unfold endLen entrySize vbnSize
  split_ifs <;> omega

theorem endLen_le_ieLen (large : Bool) (kv : KeyValue) : endLen large ≤ ieLen large kv := by
  unfold endLen ieLen
  split_ifs <;> omega

@[simp] theorem sizeOfKvs_nil : sizeOfKvs large [] = 0 := rfl

@[simp] theorem sizeOfKvs_cons (kv : KeyValue) (l : List KeyValue) :
    sizeOfKvs large (kv :: l) = ieLen large kv + sizeOfKvs large l := by
  simp [sizeOfKvs]

@[simp] theorem sizeOfKvs_append (l r : List KeyValue) :
    sizeOfKvs large (l ++ r) = sizeOfKvs large l + sizeOfKvs large r := by
  simp [sizeOfKvs]

@[simp] theorem posOf_nil : posOf large [] = indexBlockSize := rfl

theorem posOf_append (l r : List (ℕ × KeyValue)) :
    posOf large (l ++ r) = posOf large l + sizeOfKvs large (r.map Prod.snd) := by
  simp [posOf, Nat.add_assoc]

end Sizes

/-! ## Moving the cut -/

@[simp] theorem iesBefore_append (large : Bool) (prev : ℕ) (l r : List (ℕ × KeyValue)) :
    iesBefore large prev (l ++ r) = iesBefore large prev l ++ iesBefore large (lastLen large prev l) r := by
  induction l generalizing prev with
  | nil => rfl
  | cons x l ih => simp [iesBefore, lastLen, ih]

@[simp] theorem lastLen_append (large : Bool) (prev : ℕ) (l r : List (ℕ × KeyValue)) :
    lastLen large prev (l ++ r) = lastLen large (lastLen large prev l) r := by
  induction l generalizing prev with
  | nil => rfl
  | cons x l ih => simp [lastLen, ih]

/-- The same block, cut one child to the left. -/
theorem image_concat (alloc : ℕ) (large : Bool) (before : List (ℕ × KeyValue)) (b : ℕ) (kv : KeyValue)
    (c : ℕ) (after : List (KeyValue × ℕ)) :
    image alloc large (before ++ [(b, kv)]) c after = image alloc large before b ((kv, c) :: after) := by
  unfold image
  rw [posOf_append]
  simp only [iesBefore_append, iesBefore, lastLen_append, lastLen, List.append_assoc,
    List.cons_append, List.nil_append, headIe_cons, tailIes_cons, List.map_cons, List.map_nil, sizeOfKvs_cons,
    sizeOfKvs_nil, Nat.add_zero, IndexBlock.mk.injEq, and_true, true_and]
  omega

/-- The same block, cut at its first child. -/
theorem image_chain (alloc : ℕ) (large : Bool) (before : List (ℕ × KeyValue)) (c : ℕ)
    (after : List (KeyValue × ℕ)) :
    image alloc large before c after =
      image alloc large [] (chain before c after).1 (chain before c after).2 := by
  induction before using List.reverseRecOn generalizing c after with
  | nil => rfl
  | append_singleton before x ih => rw [image_concat, ih, chain_concat]

/-- Two cuts of one block. -/
theorem image_congr {alloc : ℕ} {large : Bool} {before before' : List (ℕ × KeyValue)} {c c' : ℕ}
    {after after' : List (KeyValue × ℕ)} (h : chain before c after = chain before' c' after') :
    image alloc large before c after = image alloc large before' c' after' := by
  rw [image_chain, h, ← image_chain]

/-! ## Finding entries -/

theorem splitEntries_zero (l : List IndexEntry) : splitEntries 0 l = some ([], l) := by
  cases l <;> simp [splitEntries]

theorem splitEntries_before (large : Bool) (prev : ℕ) (before : List (ℕ × KeyValue))
    (l : List IndexEntry) :
    splitEntries (sizeOfKvs large (before.map Prod.snd)) (iesBefore large prev before ++ l) =
      some (iesBefore large prev before, l) := by
  induction before generalizing prev with
  | nil => exact splitEntries_zero l
  | cons x before ih =>
    have hpos := ieLen_pos large x.2
    simp only [List.map_cons, sizeOfKvs_cons, iesBefore, List.cons_append]
    unfold splitEntries
    have hlen : ∀ c, (mkIe large prev c x.2).len = ieLen large x.2 := fun _ => rfl
    rw [if_neg (by omega), if_neg (by rw [hlen]; omega), hlen, Nat.add_sub_cancel_left, ih]
    rfl

/-- The entries behind `before` start at its position. -/
theorem entriesAt_posOf {ib : IndexBlock} {large : Bool} {before : List (ℕ × KeyValue)}
    {l : List IndexEntry} (hfirst : ib.firstEntryOff = indexBlockSize)
    (hentries : ib.entries = iesBefore large entrySize before ++ l) :
    entriesAt ib (posOf large before) = some (iesBefore large entrySize before, l) := by
  unfold entriesAt
  rw [hfirst, hentries, if_neg (by unfold posOf; omega), posOf, Nat.add_sub_cancel_left,
    splitEntries_before]

theorem posOf_ne_begin (large : Bool) (before : List (ℕ × KeyValue)) :
    posOf large before ≠ beginEntryOff := by
  unfold posOf indexBlockSize beginEntryOff
  omega

section Image

variable {alloc : ℕ} {large : Bool} {before : List (ℕ × KeyValue)} {c : ℕ}
  {after : List (KeyValue × ℕ)}

@[simp] theorem image_allocSize : (image alloc large before c after).allocSize = alloc := rfl

@[simp] theorem image_large : (image alloc large before c after).large = large := rfl

@[simp] theorem image_firstEntryOff :
    (image alloc large before c after).firstEntryOff = indexBlockSize := rfl

theorem image_realSize : (image alloc large before c after).realSize =
    posOf large before + sizeOfKvs large (after.map Prod.fst) + endLen large := rfl

theorem entriesAt_image : entriesAt (image alloc large before c after) (posOf large before) =
    some (iesBefore large entrySize before,
      headIe large (lastLen large entrySize before) c after :: tailIes large after) :=
  entriesAt_posOf rfl rfl

/-- The entry at a position is the one that points to the child there. -/
theorem getIe_image : getIe (image alloc large before c after) (posOf large before) =
    .ok (headIe large (lastLen large entrySize before) c after) := by
  unfold getIe
  rw [if_neg (posOf_ne_begin _ _), entriesAt_image]

/-- The first entry of a block without entries is the END entry. -/
theorem firstIe_image (alloc : ℕ) (large : Bool) (before : List (ℕ × KeyValue)) (c : ℕ)
    (after : List (KeyValue × ℕ)) : ∃ ie, getIe (image alloc large before c after)
    (image alloc large before c after).firstEntryOff = .ok ie ∧ ie.isEnd = (before.isEmpty && after.isEmpty) := by
  have hfirst : getIe (image alloc large before c after) indexBlockSize =
      .ok (headIe large entrySize (chain before c after).1 (chain before c after).2) := by
    rw [image_chain]
    exact getIe_image
  refine ⟨_, hfirst, ?_⟩
  cases before with
  | nil => cases after <;> rfl
  | cons x before => rfl

@[simp] theorem headIe_isEnd (large : Bool) (prev c : ℕ) (after : List (KeyValue × ℕ)) :
    (headIe large prev c after).isEnd = after.isEmpty := by
  cases after <;> rfl

@[simp] theorem headIe_isBegin (large : Bool) (prev c : ℕ) (after : List (KeyValue × ℕ)) :
    (headIe large prev c after).isBegin = false := by
  cases after <;> rfl

@[simp] theorem headIe_isNode (large : Bool) (prev c : ℕ) (after : List (KeyValue × ℕ)) :
    (headIe large prev c after).isNode = large := by
  cases after <;> rfl

@[simp] theorem headIe_vbn (prev c : ℕ) (after : List (KeyValue × ℕ)) :
    (headIe true prev c after).vbn = c := by
  cases after <;> rfl

@[simp] theorem headIe_prevLen (large : Bool) (prev c : ℕ) (after : List (KeyValue × ℕ)) :
    (headIe large prev c after).prevLen = prev := by
  cases after <;> rfl

theorem headIe_with_prevLen (large : Bool) (prev prev' c : ℕ) (after : List (KeyValue × ℕ)) :
    { headIe large prev c after with prevLen := prev' } = headIe large prev' c after := by
  cases after <;> rfl

theorem headIe_with_vbn (prev c c' : ℕ) (after : List (KeyValue × ℕ)) :
    { headIe true prev c after with vbn := c' } = headIe true prev c' after := by
  cases after <;> rfl

/-! ## Editing -/

theorem setIeVbn_image (c' : ℕ) :
    setIeVbn (image alloc true before c after) (posOf true before) c' =
      .ok (image alloc true before c' after) := by
  unfold setIeVbn
  rw [entriesAt_image]
  dsimp only
  rw [headIe_with_vbn]
  rfl

/-- `insert_ie` puts the entry, with its own child, before the entry at the position. -/
theorem insertIe_image {ie : IndexEntry} {prev d : ℕ} {kv : KeyValue} (hie : ie = mkIe large prev d kv)
    (hsize : (image alloc large before c after).realSize + ieLen large kv ≤ alloc) :
    insertIe (image alloc large before c after) ie (posOf large before) =
      .ok (image alloc large before d ((kv, c) :: after)) := by
  subst hie
  unfold insertIe
  rw [if_neg (by exact not_lt.mpr hsize), entriesAt_image]
  dsimp only
  rw [headIe_with_prevLen, headIe_prevLen]
  unfold image
  simp only [headIe_cons, tailIes_cons, mkIe, List.map_cons, sizeOfKvs_cons, Except.ok.injEq,
    IndexBlock.mk.injEq, and_true, true_and]
  omega

/-- `remove_ie` takes out the entry at the position together with the child it points to. -/
theorem removeIe_image {kv : KeyValue} {c' : ℕ} :
    removeIe (image alloc large before c ((kv, c') :: after)) (posOf large before) =
      .ok (image alloc large before c' after) := by
  unfold removeIe
  rw [entriesAt_image, headIe_cons, tailIes_cons]
  dsimp only
  rw [headIe_with_prevLen]
  unfold image
  simp only [mkIe, List.map_cons, sizeOfKvs_cons, Except.ok.injEq, IndexBlock.mk.injEq, and_true,
    true_and]
  omega

/-- `get_last_ie` finds the END entry. -/
theorem lastPosition_image : lastPosition (image alloc large before c []) = posOf large before := by
  unfold lastPosition
  rw [image_realSize, image_large]
  exact Nat.add_sub_cancel _ _

/-! ## The entry before a position -/

/-- The entry before a position is as long as the `prev_len` there says. -/
theorem getIe_prev {ib : IndexBlock} {l : List IndexEntry} (hfirst : ib.firstEntryOff = indexBlockSize)
    (hbegin : ib.beginEntry = beginIe) (hentries : ib.entries = iesBefore large entrySize before ++ l) :
    ∃ e, getIe ib (posOf large before - lastLen large entrySize before) = .ok e ∧
      e.len = lastLen large entrySize before := by
  induction before using List.reverseRecOn with
  | nil =>
    refine ⟨beginIe, ?_, rfl⟩
    unfold getIe
    rw [if_pos (by rfl), hbegin]
  | append_singleton before x _ =>
    refine ⟨mkIe large (lastLen large entrySize before) x.1 x.2, ?_, ?_⟩
    · have hpos : posOf large (before ++ [x]) - lastLen large entrySize (before ++ [x]) =
          posOf large before := by
        simp [posOf_append, lastLen]
      unfold getIe
      rw [hpos, if_neg (posOf_ne_begin _ _),
        entriesAt_posOf hfirst (by rw [hentries, iesBefore_append, List.append_assoc])]
      rfl
    · simp [lastLen, mkIe]

/-- Going back over the entry before a cut. -/
theorem posOf_sub_lastLen (b : ℕ) (kv : KeyValue) :
    posOf large (before ++ [(b, kv)]) - lastLen large entrySize (before ++ [(b, kv)]) =
      posOf large before := by
  simp [posOf_append, lastLen]

end Image

/-! ## Splitting -/

/-- The loop stops at the entry that contains the byte `midPos`. -/
theorem middleLoop_spec (large : Bool) (midPos pos prev c : ℕ) (rest : List (KeyValue × ℕ))
    (h1 : 1 ≤ midPos) (h2 : midPos ≤ sizeOfKvs large (rest.map Prod.fst)) :
    ∃ B m kv a A, chain B m ((kv, a) :: A) = (c, rest) ∧
      middleLoop midPos pos (headIe large prev c rest :: tailIes large rest) =
        pos + sizeOfKvs large (B.map Prod.snd) ∧
      sizeOfKvs large (B.map Prod.snd) < midPos ∧
      midPos ≤ sizeOfKvs large (B.map Prod.snd) + ieLen large kv := by
  induction rest generalizing midPos pos prev c with
  | nil => simp at h2; omega
  | cons x rest ih =>
    obtain ⟨kv, c'⟩ := x
    have hstep : middleLoop midPos pos (headIe large prev c ((kv, c') :: rest) :: tailIes large ((kv, c') :: rest)) =
        if midPos > ieLen large kv then
          middleLoop (midPos - ieLen large kv) (pos + ieLen large kv)
            (headIe large (ieLen large kv) c' rest :: tailIes large rest)
        else pos := by
      rw [middleLoop]
      simp [mkIe]
    rw [hstep]
    by_cases hgt : midPos > ieLen large kv
    · rw [if_pos hgt]
      simp only [List.map_cons, sizeOfKvs_cons] at h2
      obtain ⟨B, m, kv', a, A, hchain, hmid, hlt, hle⟩ :=
        ih (midPos - ieLen large kv) (pos + ieLen large kv) (ieLen large kv) c' (by omega) (by omega)
      refine ⟨(c, kv) :: B, m, kv', a, A, by simp [chain, hchain], ?_, ?_, ?_⟩
      · rw [hmid]
        simp only [List.map_cons, sizeOfKvs_cons]
        omega
      · simp only [List.map_cons, sizeOfKvs_cons]
        omega
      · simp only [List.map_cons, sizeOfKvs_cons]
        omega
    · rw [if_neg hgt]
      exact ⟨[], c, kv, c', rest, rfl, by simp, h1, by simpa using not_lt.mp hgt⟩

section Split

variable {alloc : ℕ} {large : Bool} {before B : List (ℕ × KeyValue)} {c m a : ℕ} {kv : KeyValue}
  {after A : List (KeyValue × ℕ)}

/-- `get_middle_ie` on a block with entries: those left of the middle one take less than half of the
bytes, those up to it at least half. -/
theorem getMiddleIe_image (hne : (chain before c after).2 ≠ []) :
    ∃ B m kv a A, chain B m ((kv, a) :: A) = chain before c after ∧
      getMiddleIe (image alloc large before c after) = posOf large B ∧
      sizeOfKvs large (B.map Prod.snd) <
        ((image alloc large before c after).realSize - indexBlockSize) / 2 ∧
      ((image alloc large before c after).realSize - indexBlockSize) / 2 ≤
        sizeOfKvs large (B.map Prod.snd) + ieLen large kv := by
  rw [image_chain]
  set c₀ := (chain before c after).1
  set rest := (chain before c after).2
  have hsize : (image alloc large [] c₀ rest).realSize - indexBlockSize =
      sizeOfKvs large (rest.map Prod.fst) + endLen large := by
    rw [image_realSize, posOf_nil]
    omega
  -- one entry is as long as the END entry at least
  have hentry : endLen large ≤ sizeOfKvs large (rest.map Prod.fst) := by
    obtain ⟨x, rest', hrest⟩ := List.exists_cons_of_ne_nil hne
    have hx := endLen_le_ieLen large x.1
    rw [hrest, List.map_cons, sizeOfKvs_cons]
    omega
  have hend := endLen_bounds large
  obtain ⟨B, m, kv, a, A, hchain, hmid, hlt, hle⟩ := middleLoop_spec large
    (((image alloc large [] c₀ rest).realSize - indexBlockSize) / 2) indexBlockSize entrySize c₀ rest
    (by omega) (by omega)
  exact ⟨B, m, kv, a, A, hchain, hmid, hlt, hle⟩

/-- The block that `copy_ib_tail` leaves behind: the entry behind the middle one
has the `prev_len` that its copy needs. -/
def cutImage (alloc : ℕ) (large : Bool) (B : List (ℕ × KeyValue)) (m : ℕ) (kv : KeyValue) (a : ℕ)
    (A : List (KeyValue × ℕ)) : IndexBlock :=
  { image alloc large B m ((kv, a) :: A) with
    entries := iesBefore large entrySize B ++ mkIe large (lastLen large entrySize B) m kv ::
      headIe large entrySize a A :: tailIes large A }

theorem entriesAt_cutImage : entriesAt (cutImage alloc large B m kv a A) (posOf large B) =
    some (iesBefore large entrySize B, mkIe large (lastLen large entrySize B) m kv ::
      headIe large entrySize a A :: tailIes large A) :=
  entriesAt_posOf rfl rfl

theorem copyIbTail_image : copyIbTail (image alloc large B m ((kv, a) :: A)) (posOf large B) =
    .ok (image alloc large [] a A, cutImage alloc large B m kv a A) := by
  have hsize : (image alloc large B m ((kv, a) :: A)).realSize -
      (posOf large B + (mkIe large (lastLen large entrySize B) m kv).len) + indexBlockSize =
      posOf large [] + sizeOfKvs large (A.map Prod.fst) + endLen large := by
    simp only [image_realSize, List.map_cons, sizeOfKvs_cons, posOf_nil, mkIe]
    omega
  unfold copyIbTail
  rw [entriesAt_image, headIe_cons, tailIes_cons]
  dsimp only
  rw [headIe_with_prevLen, hsize]
  rfl

theorem getIe_cutImage : getIe (cutImage alloc large B m kv a A) (posOf large B) =
    .ok (mkIe large (lastLen large entrySize B) m kv) := by
  unfold getIe
  rw [if_neg (posOf_ne_begin _ _), entriesAt_cutImage]

/-- The last entry is the END entry. -/
theorem getLast?_headIe (large : Bool) (prev c : ℕ) (after : List (KeyValue × ℕ)) :
    ∃ p w, (headIe large prev c after :: tailIes large after).getLast? = some (mkEnd large p w) := by
  induction after generalizing prev c with
  | nil => exact ⟨prev, c, rfl⟩
  | cons x after ih =>
    obtain ⟨p, w, h⟩ := ih (ieLen large x.1) x.2
    refine ⟨p, w, ?_⟩
    rw [tailIes_cons, List.getLast?_cons_cons]
    exact h

/-- `cut_ib_tail`: the END entry takes the place and the child of the middle entry. -/
theorem cutIbTail_cutImage : cutIbTail (cutImage alloc large B m kv a A) (posOf large B) =
    .ok (image alloc large B m []) := by
  obtain ⟨p, w, hlast⟩ := getLast?_headIe large entrySize a A
  have hbefore : ∃ e, getIe (cutImage alloc large B m kv a A)
      (posOf large B - lastLen large entrySize B) = .ok e ∧ e.len = lastLen large entrySize B :=
    getIe_prev rfl rfl rfl
  obtain ⟨e, hprev, hlen⟩ := hbefore
  have hpl : (mkIe large (lastLen large entrySize B) m kv).prevLen = lastLen large entrySize B := rfl
  unfold cutIbTail
  rw [entriesAt_cutImage]
  dsimp only
  rw [hlast]
  dsimp only
  rw [hpl, hprev]
  simp only [bind, Except.bind, pure, Except.pure, hlen, Except.ok.injEq]
  unfold cutImage image
  cases large <;>
  · simp [mkEnd, mkIe, endIe, endLen, tailIes, headIe, posOf]
    try omega

end Split

end IndexFs.Tree
