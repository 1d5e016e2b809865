import IndexFs.Basic

/-!
# Index blocks

`index_block_t` and the functions of `object_system/ofs_btree.c` that work on the
entries of one block (lines 256–326 and 597–800). A position is a byte offset in
the block, as in the code; entries are found by walking from the first one, and
an offset that is not the start of an entry is an error (`memory`), as is a write
behind the block.
-/

namespace IndexFs.Tree

/-- `index_block_t`: `alloc_size` and `real_size` of its head, `node_type`, and the
entries. `entries` are those from `first_entry_off` to the END entry. -/
structure IndexBlock where
  allocSize : ℕ
  realSize : ℕ
  large : Bool
  firstEntryOff : ℕ
  beginEntry : IndexEntry
  entries : List IndexEntry
  deriving DecidableEq, Repr

/-- `ENTRY_BEGIN_SIZE` bytes with `INDEX_ENTRY_BEGIN`. -/
def beginIe : IndexEntry :=
  { len := entrySize, prevLen := 0, key := [], value := [], vbn := 0,
    isNode := false, isEnd := false, isBegin := true }

/-- The END entry of a fresh block, with room for a child number if `large`. -/
def endIe (large : Bool) : IndexEntry :=
  { len := if large then entrySize + vbnSize else entrySize, prevLen := entrySize, key := [],
    value := [], vbn := 0, isNode := large, isEnd := true, isBegin := false }

/-- `init_ib` (lines 256–300). -/
def initIb (large : Bool) (allocSize : ℕ) : IndexBlock :=
  { allocSize := allocSize, realSize := indexBlockSize + (endIe large).len, large := large,
    firstEntryOff := indexBlockSize, beginEntry := beginIe, entries := [endIe large] }

/-- `make_ib_small` (lines 303–326). -/
def makeIbSmall (ib : IndexBlock) : IndexBlock :=
  { ib with realSize := indexBlockSize + entrySize, large := false, beginEntry := beginIe,
            entries := [endIe false] }

/-! ## Finding entries -/

/-- Cut the entries at the offset `n` behind their start. -/
def splitEntries (n : ℕ) : List IndexEntry → Option (List IndexEntry × List IndexEntry)
  | [] => if n = 0 then some ([], []) else none
  | e :: l =>
    if n = 0 then some ([], e :: l)
    else if n < e.len then none
    else (splitEntries (n - e.len) l).map fun r => (e :: r.1, r.2)

/-- The entries before and from the position `pos` on. -/
def entriesAt (ib : IndexBlock) (pos : ℕ) : Option (List IndexEntry × List IndexEntry) :=
  if pos < ib.firstEntryOff then none else splitEntries (pos - ib.firstEntryOff) ib.entries

/-- The entry at `pos`, which may be `begin_entry`. -/
def getIe (ib : IndexBlock) (pos : ℕ) : Except ErrorCode IndexEntry :=
  if pos = beginEntryOff then .ok ib.beginEntry
  else match entriesAt ib pos with
    | some (_, e :: _) => .ok e
    | _ => .error .memory

/-- `SET_IE_VBN` on the entry at `pos`. -/
def setIeVbn (ib : IndexBlock) (pos vbn : ℕ) : Except ErrorCode IndexBlock :=
  match entriesAt ib pos with
  | some (before, e :: after) => .ok { ib with entries := before ++ { e with vbn := vbn } :: after }
  | _ => .error .memory

/-! ## Editing -/

/-- `insert_ie` (lines 680–695): `ie` goes before the entry at `pos`. -/
def insertIe (ib : IndexBlock) (ie : IndexEntry) (pos : ℕ) : Except ErrorCode IndexBlock :=
  if ib.allocSize < ib.realSize + ie.len then .error .memory
  else match entriesAt ib pos with
    | some (before, p :: after) =>
      .ok { ib with
        realSize := ib.realSize + ie.len
        entries := before ++ { ie with prevLen := p.prevLen } :: { p with prevLen := ie.len } :: after }
    | _ => .error .memory

/-- `remove_ie` (lines 664–678). -/
def removeIe (ib : IndexBlock) (pos : ℕ) : Except ErrorCode IndexBlock :=
  match entriesAt ib pos with
  | some (before, e :: next :: after) =>
    .ok { ib with
      realSize := ib.realSize - e.len
      entries := before ++ { next with prevLen := e.prevLen } :: after }
  | _ => .error .memory

/-- `dump_ie_add_vbn` (lines 698–724). -/
def dumpIeAddVbn (ie : IndexEntry) (vbn : ℕ) : IndexEntry :=
  { ie with len := uint16 (if ie.isNode then ie.len else ie.len + vbnSize), isNode := true, vbn := vbn }

/-- `dump_ie_del_vbn` (lines 727–752). -/
def dumpIeDelVbn (ie : IndexEntry) : IndexEntry :=
  { ie with len := if ie.isNode then ie.len - vbnSize else ie.len, isNode := false, vbn := 0 }

/-! ## Splitting -/

/-- The loop of `get_middle_ie` (lines 606–617), from the entry at `pos` on. -/
def middleLoop (midPos pos : ℕ) : List IndexEntry → ℕ
  | [] => pos
  | e :: l =>
    if e.isEnd then pos
    else if midPos > e.len then middleLoop (midPos - e.len) (pos + e.len) l
    else pos

/-- `get_middle_ie` (lines 597–620): the position of the entry. -/
def getMiddleIe (ib : IndexBlock) : ℕ :=
  middleLoop ((ib.realSize - indexBlockSize) / 2) ib.firstEntryOff ib.entries

/-- `copy_ib_tail` (lines 755–774): the new block with the entries behind the one at
`mid`, and the source block, whose entry behind `mid` gets a new `prev_len` too. -/
def copyIbTail (src : IndexBlock) (mid : ℕ) : Except ErrorCode (IndexBlock × IndexBlock) :=
  match entriesAt src mid with
  | some (before, m :: next :: after) =>
    let next := { next with prevLen := entrySize }
    let tailSize := src.realSize - (mid + m.len)
    .ok ({ initIb src.large src.allocSize with
            realSize := tailSize + indexBlockSize, entries := next :: after },
         { src with entries := before ++ m :: next :: after })
  | _ => .error .memory

/-- `cut_ib_tail` (lines 777–799): the END entry moves to the place of the entry at
`mid` and takes over its child. -/
def cutIbTail (src : IndexBlock) (mid : ℕ) : Except ErrorCode IndexBlock :=
  match entriesAt src mid with
  | some (before, m :: rest) =>
    match rest.getLast? with
    | some last => do
      let prev ← getIe src (mid - m.prevLen)
      let last := if last.isNode then { last with vbn := m.vbn } else last
      return { src with
        realSize := last.len + (mid - src.firstEntryOff) + src.firstEntryOff
        entries := before ++ [{ last with prevLen := prev.len }] }
    | none => .error .memory
  | _ => .error .memory

end IndexFs.Tree
