import IndexFs.Block.Framing
import IndexFs.Lib.CString

/-!
# Names of objects

`ofs_set_object_name`, `init_inode`, `create_object_at_inode` and `recover_obj_inode`
of `object_system/ofs_object_manager.c` (lines 164–184, 262–352 and 424–444). The
name is in `object_info` as a string, and in the inode as a length and bytes.

`ofs_set_object_name` copies as many bytes as the new name has, and no zero behind
them: the end of a longer name stays in `object_info`. The inode has the length.

Results:

* `setObjectName_ok`: what the two copies of the name are after a call.
* `reopen_ends`: opened again, an object has the name its inode holds.
* `rename_exact`: when a call leaves the new name in both places.
-/

namespace IndexFs.Object.Names

open Framing

/-! ## Model of the code -/

/-- `OBJ_NAME_MAX_SIZE`. -/
def objNameMaxSize : ℕ := 256

/-- `INODE_MAGIC`. -/
def inodeMagic : ℕ := 0x454A424F

/-- `INODE_SIZE`. -/
def inodeSize : ℕ := 4096

/-- Offset of `name_size` in `inode_record_t`. -/
def nameSizeOff : ℤ := 104

/-- Offset of `name` in `inode_record_t`. -/
def nameOff : ℤ := 106

/-- Offset of `reserved` in `inode_record_t`. -/
def reservedOff : ℤ := 362

/-- What an open object has of its name: `obj_info->name`, the block of its inode and whether that is
dirty, its number, and the disk. -/
structure OpenObject where
  name : Mem
  inode : Mem
  dirty : Bool
  inodeNo : ℕ
  disk : Mem

/-- `obj_info->name` as a string. -/
def OpenObject.nameString (s : OpenObject) : Bytes := cStr s.name 0 objNameMaxSize

/-- Lines 437–441: both copies of the name and the length. -/
def OpenObject.setName (s : OpenObject) (name : CString) (nameSize : ℕ) : OpenObject :=
  { s with
    name := strncpy s.name 0 name.text 0 nameSize
    inode := writeLe (strncpy s.inode nameOff name.text 0 nameSize) nameSizeOff 2 nameSize
    dirty := true }

/-- `ofs_set_object_name` (lines 424–444). `name_size` is a `uint32_t`. -/
def ofsSetObjectName (name : CString) : EStateM ErrorCode OpenObject Unit := do
  let nameSize := uint32 name.bytes.length
  if nameSize ≥ objNameMaxSize then throw .parameter
  modify fun s => s.setName name nameSize

/-- `%llu`. -/
def decimal (n : ℕ) : Bytes :=
  if n = 0 then [48] else ((Nat.digits 10 n).map fun d => UInt8.ofNat (48 + d)).reverse

/-- The name that `snprintf(inode->name, OBJ_NAME_MAX_SIZE, "OBJ%llu", objid)` makes. -/
def defaultName (objid : ℕ) : Bytes := ([79, 66, 74] ++ decimal objid).take (objNameMaxSize - 1)

/-- `init_inode` (lines 262–284): `memset` and the fields in front of the name that are not zero. The attribute
record behind the name is that of `attr`. -/
def inodeHead (attr : Mem) (objid : ℕ) : Mem :=
  let inode : Mem := fun i => if reservedOff ≤ i then attr i else 0
  let inode := writeLe inode 0 4 inodeMagic
  let inode := writeLe inode 4 4 inodeSize
  let inode := writeLe inode 8 4 inodeSize
  let inode := writeLe inode 16 2 reservedOff.toNat
  writeLe inode 24 8 objid

/-- `init_inode` (lines 262–301). -/
def initInode (attr : Mem) (objid : ℕ) : Mem :=
  let name := defaultName objid
  let inode : Mem := fun i =>
    if nameOff ≤ i ∧ i < nameOff + objNameMaxSize then name.getD (i - nameOff).toNat 0 else inodeHead attr objid i
  writeLe inode nameSizeOff 2 name.length

/-- The part of `create_object_at_inode` (lines 303–352) about the name. `get_object_info` clears `name`. -/
def createObjectAtInode (attr disk : Mem) (objid inodeNo : ℕ) : OpenObject :=
  let inode := initInode attr objid
  { name := strncpy (fun _ => 0) 0 inode nameOff (readLe inode nameSizeOff 2)
    inode
    dirty := true
    inodeNo
    disk }

/-- The inode of an object and the disk. -/
def withInode {α : Type} (x : EStateM ErrorCode Store α) : EStateM ErrorCode OpenObject α :=
  zoom (fun s => ⟨s.disk, s.inode⟩) (fun t s => { s with disk := t.disk, inode := t.blk }) x

/-- `flush_container_dirty_cache` on the inode, in a commit. -/
def commit : EStateM ErrorCode OpenObject Unit := do
  if (← get).dirty then
    let _ ← withInode (ofsUpdateBlockFixup (.count blockSize) (← get).inodeNo)
    modify fun s => { s with dirty := false }

/-- Lines 179–181: the name is taken from the inode. -/
def OpenObject.recoverName (s : OpenObject) : OpenObject :=
  { s with
    name := strncpy (fun _ => 0) 0 s.inode nameOff (readLe s.inode nameSizeOff 2)
    dirty := false }

/-- `recover_obj_inode` (lines 164–184) into a new `object_info`. The block of the inode is still in the
cache of the container (`cached`), or it is read into a new buffer. -/
def recoverObjInode (cached : Bool) (buf : Mem) : EStateM ErrorCode OpenObject Unit := do
  if !cached then
    modify fun s => { s with inode := buf }
    withInode (ofsReadBlockFixup (← get).inodeNo inodeMagic blockSize)
  modify OpenObject.recoverName

/-- The object is committed, closed and opened. -/
def reopen (cached : Bool) (buf : Mem) : EStateM ErrorCode OpenObject Unit := do
  commit
  recoverObjInode cached buf

/-! ## An inode with its name -/

/-- The block of an inode with the name `l`. -/
structure NamedInode (m : Mem) (l : Bytes) : Prop where
  blkId : blkId m = inodeMagic
  allocSize : allocSize m = inodeSize
  realSize : realSize m = inodeSize
  nonzero : 0 ∉ l
  short : l.length < objNameMaxSize
  size : readLe m nameSizeOff 2 = l.length
  text : Holds m nameOff l

/-- The two blocks have the same id, sizes and name. -/
def SameName (m m' : Mem) : Prop :=
  ∀ i : ℤ, 0 ≤ i ∧ i < 12 ∨ nameSizeOff ≤ i ∧ i < reservedOff → m' i = m i

/-- The block `inodeNo` of the disk is what `m` was written as. -/
def Stored (disk : Mem) (inodeNo : ℕ) (m : Mem) : Prop :=
  ∀ i : ℤ, 0 ≤ i → i < inodeSize → disk (startOf inodeNo + i) = assembled m i

section Inode

variable {m m' : Mem} {l : Bytes}

theorem NamedInode.congr (h : NamedInode m l) (hm : SameName m m') : NamedInode m' l := by
  have hshort := h.short
  unfold SameName nameSizeOff reservedOff at hm
  unfold objNameMaxSize at hshort
  have hhead : ∀ {off : ℤ} {n : ℕ}, 0 ≤ off → off + n ≤ 12 → readLe m' off n = readLe m off n := fun h0 hn =>
    readLe_congr fun i hlo hhi => hm i (.inl ⟨by omega, by omega⟩)
  refine ⟨?_, ?_, ?_, h.nonzero, h.short, ?_, ?_⟩
  · exact (hhead le_rfl (by norm_num)).trans h.blkId
  · exact (hhead (by norm_num) (by norm_num)).trans h.allocSize
  · exact (hhead (by norm_num) (by norm_num)).trans h.realSize
  · exact (readLe_congr fun i hlo hhi => hm i (.inr ⟨hlo, by omega⟩)).trans h.size
  · refine h.text.congr fun i hlo hhi => hm i (.inr ?_)
    unfold nameOff at hlo hhi
    omega

theorem NamedInode.framed (h : NamedInode m l) : Framed m :=
  ⟨by rw [h.realSize, h.allocSize], by rw [h.allocSize]; decide⟩

theorem NamedInode.completed (h : NamedInode m l) : NamedInode (completed m) l := by
  refine h.congr fun i hi => completed_outside ?_
  unfold nameSizeOff at hi
  omega

/-- A read block with the same bytes. -/
theorem NamedInode.sameUpTo (h : NamedInode m l) (hm : SameUpTo inodeSize m' m) : NamedInode m' l := by
  refine h.congr fun i hi => ?_
  unfold nameSizeOff reservedOff at hi
  exact hm i (by omega) (by unfold inodeSize; omega)

/-- The string that `strncpy` takes from the inode. -/
theorem NamedInode.cStr (h : NamedInode m l) : cStr m nameOff (readLe m nameSizeOff 2) = l := by
  rw [h.size, cStr_of_holds h.nonzero h.text le_rfl, Nat.sub_self]
  exact List.append_nil l

/-- `obj_info->name` when it is made from the inode. -/
theorem NamedInode.padded (h : NamedInode m l) :
    Padded (strncpy (fun _ => 0) 0 m nameOff (readLe m nameSizeOff 2)) 0 objNameMaxSize l := by
  have hempty : Padded (fun _ => 0) 0 objNameMaxSize [] :=
    ⟨List.not_mem_nil, by decide, fun i hi => absurd hi (Nat.not_lt_zero i), fun _ _ _ => rfl⟩
  have h' := hempty.strncpy h.cStr h.size.symm h.nonzero (by rw [h.size]; exact h.short)
  rwa [List.drop_nil, List.append_nil] at h'

end Inode

/-! ## The state of an open object -/

/-- What is always true of an open object: its inode holds the name `l`, its `object_info` holds some name, and
a clean inode is on the disk. -/
structure Tidy (s : OpenObject) (l : Bytes) : Prop where
  inode : NamedInode s.inode l
  name : Padded s.name 0 objNameMaxSize s.nameString
  stored : s.dirty = false → ∃ m, NamedInode m l ∧ Stored s.disk s.inodeNo m

section Calls

variable {s s' : OpenObject} {l : Bytes}

theorem nameString_of_padded (h : Padded s.name 0 objNameMaxSize l) : s.nameString = l := h.cStr

theorem padded_nameString (h : Padded s.name 0 objNameMaxSize l) : Padded s.name 0 objNameMaxSize s.nameString := by
  rwa [nameString_of_padded h]

/-- A name that is taken: the inode has it, `object_info` has the end of the old one behind it. -/
theorem Tidy.setName (h : Tidy s l) (name : CString) {k : ℕ} (hk : k ≤ name.bytes.length) (hsize : k < objNameMaxSize) :
    Tidy (s.setName name k) (name.bytes.take k) ∧
      (s.setName name k).nameString = name.bytes.take k ++ s.nameString.drop k := by
  have hlen : (name.bytes.take k).length = k := List.length_take_of_le hk
  have htext : cStr name.text 0 k = name.bytes.take k := name.cStr_text hk
  have hnonzero : 0 ∉ name.bytes.take k := fun h0 => name.nonzero (List.mem_of_mem_take h0)
  have hname : Padded (s.setName name k).name 0 objNameMaxSize (name.bytes.take k ++ s.nameString.drop k) :=
    h.name.strncpy htext hlen hnonzero hsize
  have hcopied : Holds (strncpy s.inode nameOff name.text 0 k) nameOff (name.bytes.take k) := by
    rw [← htext]
    exact strncpy_holds (by rw [htext, hlen])
  have hhead : ∀ i : ℤ, i < nameSizeOff → (s.setName name k).inode i = s.inode i := by
    intro i hi
    show writeLe _ _ _ _ _ = _
    rw [writeLe_outside (.inl hi), strncpy_outside]
    unfold nameSizeOff at hi
    unfold nameOff
    omega
  have hfield : ∀ {off : ℤ}, off + 4 ≤ nameSizeOff → readLe (s.setName name k).inode off 4 = readLe s.inode off 4 :=
    fun ho => readLe_congr fun i _ hhi => hhead i (by push_cast at hhi; omega)
  refine ⟨⟨⟨?_, ?_, ?_, hnonzero, by rw [hlen]; exact hsize, ?_, ?_⟩, padded_nameString hname, ?_⟩,
    nameString_of_padded hname⟩
  · exact (hfield (by norm_num [nameSizeOff])).trans h.inode.blkId
  · exact (hfield (by norm_num [nameSizeOff])).trans h.inode.allocSize
  · exact (hfield (by norm_num [nameSizeOff])).trans h.inode.realSize
  · have hsmall : k < 256 ^ 2 := hsize.trans (by decide)
    unfold OpenObject.setName
    rw [readLe_writeLe, Nat.mod_eq_of_lt hsmall, hlen]
  · refine hcopied.congr fun i hlo hhi => writeLe_outside (.inr ?_)
    unfold nameOff at hlo
    unfold nameSizeOff
    omega
  · intro hclean
    cases hclean

theorem ofsSetObjectName_eq (name : CString) : ofsSetObjectName name s =
    if uint32 name.bytes.length ≥ objNameMaxSize then .error .parameter s
    else .ok () (s.setName name (uint32 name.bytes.length)) := by
  unfold ofsSetObjectName
  split_ifs with h <;> rfl

/-! ## Closed and opened again -/

theorem stored_putBytes (disk m : Mem) (inodeNo : ℕ) :
    Stored (putBytes (startOf inodeNo) inodeSize (assembled m) disk) inodeNo m := by
  intro i h0 hi
  unfold putBytes
  rw [if_pos ⟨by omega, by omega⟩, add_sub_cancel_left]

theorem commit_ends (h : Tidy s l) :
    Ends commit s (fun _ s' => Tidy s' l ∧ s'.dirty = false) fun _ _ => False := by
  unfold commit
  rw [ends_bind, ends_get]
  split_ifs with hdirty
  · have hwrite := ofsUpdateBlockFixup_eq (s := ⟨s.disk, s.inode⟩) (.count blockSize) s.inodeNo h.inode.framed
    have hsize : min blockSize (allocSize s.inode) = inodeSize := by rw [h.inode.allocSize]; rfl
    unfold withInode
    rw [ends_bind, ends_get, ends_bind, ends_zoom, ends_of_ok hwrite, ends_modify, hsize]
    exact ⟨⟨h.inode.completed, h.name, fun _ => ⟨s.inode, h.inode, stored_putBytes _ _ _⟩⟩, rfl⟩
  · exact ⟨h, by simpa using hdirty⟩

theorem recoverName_tidy {m : Mem} (hinode : NamedInode s.inode l) (hm : NamedInode m l)
    (hstored : Stored s.disk s.inodeNo m) : Tidy s.recoverName l ∧ s.recoverName.nameString = l :=
  ⟨⟨hinode, padded_nameString hinode.padded, fun _ => ⟨m, hm, hstored⟩⟩, nameString_of_padded hinode.padded⟩

theorem recoverObjInode_ends (h : Tidy s l) (hclean : s.dirty = false) (cached : Bool) (buf : Mem) :
    Ends (recoverObjInode cached buf) s (fun _ s' => Tidy s' l ∧ s'.nameString = l) fun _ _ => False := by
  obtain ⟨m, hm, hstored⟩ := h.stored hclean
  cases cached with
  | true => exact recoverName_tidy h.inode hm hstored
  | false =>
    obtain ⟨b, hread, hb⟩ := ofsReadBlockFixup_written (s := ⟨s.disk, buf⟩) s.inodeNo hm.framed
      (by rw [hm.blkId]; decide) (by rw [hm.realSize]; decide) (by rw [hm.allocSize]; exact hstored)
    rw [hm.blkId, hm.allocSize] at hread
    rw [hm.allocSize] at hb
    show Ends ((modify fun s : OpenObject => { s with inode := buf }) >>= fun _ => _) s _ _
    rw [ends_bind, ends_modify]
    show Ends (get >>= fun s : OpenObject => withInode _ >>= fun _ => _) _ _ _
    unfold withInode
    rw [ends_bind, ends_get, ends_bind, ends_zoom]
    exact (ends_of_ok hread).mpr (recoverName_tidy (hm.completed.sameUpTo hb) hm hstored)

/-- Opened again, an object has the name its inode holds. -/
theorem reopen_ends (h : Tidy s l) (cached : Bool) (buf : Mem) :
    Ends (reopen cached buf) s (fun _ s' => Tidy s' l ∧ s'.nameString = l) fun _ _ => False :=
  (commit_ends h).seq fun _ _ h => recoverObjInode_ends h.1 h.2 cached buf

end Calls

/-! ## Created objects -/

theorem decimal_nonzero (n : ℕ) : 0 ∉ decimal n := by
  unfold decimal
  split_ifs
  · decide
  · intro h0
    rw [List.mem_reverse, List.mem_map] at h0
    obtain ⟨d, hd, h⟩ := h0
    have hlt : d < 10 := Nat.digits_lt_base (by norm_num) hd
    have hcode := congrArg UInt8.toNat h
    rw [UInt8.toNat_ofNat', Nat.mod_eq_of_lt (by omega)] at hcode
    have hzero : (0 : UInt8).toNat = 0 := rfl
    omega

theorem defaultName_spec (objid : ℕ) : 0 ∉ defaultName objid ∧ (defaultName objid).length < objNameMaxSize := by
  unfold defaultName
  refine ⟨fun h0 => ?_, ?_⟩
  · rcases List.mem_append.mp (List.mem_of_mem_take h0) with h | h
    · exact absurd h (by decide)
    · exact decimal_nonzero objid h
  · rw [List.length_take]
    exact (min_le_left _ _).trans_lt (by decide)

theorem initInode_named (attr : Mem) (objid : ℕ) : NamedInode (initInode attr objid) (defaultName objid) := by
  obtain ⟨hnonzero, hshort⟩ := defaultName_spec objid
  have hhead : ∀ {off : ℤ}, off + 4 ≤ 12 → readLe (initInode attr objid) off 4 = readLe (inodeHead attr objid) off 4 := by
    intro off ho
    refine readLe_congr fun i _ hhi => ?_
    unfold initInode
    rw [writeLe_outside (by unfold nameSizeOff; push_cast at hhi; omega),
      if_neg (by unfold nameOff; push_cast at hhi; omega)]
  refine ⟨?_, ?_, ?_, hnonzero, hshort, ?_, ?_⟩
  · refine (hhead (by norm_num)).trans ?_
    unfold inodeHead
    rw [readLe_writeLe_disjoint (by norm_num), readLe_writeLe_disjoint (by norm_num),
      readLe_writeLe_disjoint (by norm_num), readLe_writeLe_disjoint (by norm_num), readLe_writeLe]
    rfl
  · refine (hhead (by norm_num)).trans ?_
    unfold inodeHead
    rw [readLe_writeLe_disjoint (by norm_num), readLe_writeLe_disjoint (by norm_num),
      readLe_writeLe_disjoint (by norm_num), readLe_writeLe]
    rfl
  · refine (hhead (by norm_num)).trans ?_
    unfold inodeHead
    rw [readLe_writeLe_disjoint (by norm_num), readLe_writeLe_disjoint (by norm_num), readLe_writeLe]
    rfl
  · unfold initInode
    rw [readLe_writeLe, Nat.mod_eq_of_lt (hshort.trans (by decide))]
  · intro i hi
    unfold initInode
    unfold objNameMaxSize at hshort
    rw [writeLe_outside (by unfold nameSizeOff nameOff; omega), if_pos ⟨by omega, by unfold objNameMaxSize; omega⟩,
      add_sub_cancel_left, Int.toNat_natCast]

theorem createObjectAtInode_tidy (attr disk : Mem) (objid inodeNo : ℕ) :
    Tidy (createObjectAtInode attr disk objid inodeNo) (defaultName objid) := by
  have hinode := initInode_named attr objid
  exact ⟨hinode, padded_nameString hinode.padded, fun h => nomatch h⟩

/-! ## Runs of calls -/

/-- The states of an open object: one that was created, renamed, opened again, or whose inode was changed in
other ways. -/
inductive Reachable : OpenObject → Prop
  | create (attr disk : Mem) (objid inodeNo : ℕ) : Reachable (createObjectAtInode attr disk objid inodeNo)
  | rename {s s' : OpenObject} (name : CString) : Reachable s → ofsSetObjectName name s = .ok () s' → Reachable s'
  | reopen {s s' : OpenObject} (cached : Bool) (buf : Mem) : Reachable s → reopen cached buf s = .ok () s' →
      Reachable s'
  | change {s s' : OpenObject} : Reachable s → s'.name = s.name → SameName s.inode s'.inode → s'.dirty = true →
      Reachable s'

theorem Reachable.tidy {s : OpenObject} (h : Reachable s) : ∃ l, Tidy s l := by
  induction h with
  | create attr disk objid inodeNo => exact ⟨_, createObjectAtInode_tidy attr disk objid inodeNo⟩
  | rename name _ hcall ih =>
    obtain ⟨l, h⟩ := ih
    rw [ofsSetObjectName_eq] at hcall
    split_ifs at hcall with hlong
    cases hcall
    exact ⟨_, (h.setName name (Nat.mod_le _ _) (not_le.mp hlong)).1⟩
  | reopen cached buf _ hcall ih =>
    obtain ⟨l, h⟩ := ih
    exact ⟨l, ((ends_of_ok hcall).mp (reopen_ends h cached buf)).1⟩
  | change _ hname hinode hdirty ih =>
    obtain ⟨l, h⟩ := ih
    refine ⟨l, h.inode.congr hinode, ?_, fun hclean => absurd hclean (by rw [hdirty]; decide)⟩
    have hpadded := h.name
    rw [← hname] at hpadded
    exact padded_nameString hpadded

/-- The object after a sequence of calls, refused ones among them. -/
def afterCalls (s : OpenObject) (names : List CString) : OpenObject :=
  names.foldl (fun s name => finalState (ofsSetObjectName name) s) s

theorem Reachable.call {s : OpenObject} (h : Reachable s) (name : CString) :
    Reachable (finalState (ofsSetObjectName name) s) := by
  have hcall := ofsSetObjectName_eq (s := s) name
  unfold finalState
  split_ifs at hcall with hlong
  · rw [hcall]
    exact h
  · rw [hcall]
    exact h.rename name hcall

theorem Reachable.afterCalls {s : OpenObject} (h : Reachable s) (names : List CString) :
    Reachable (afterCalls s names) := by
  induction names generalizing s with
  | nil => exact h
  | cons name names ih => exact ih (h.call name)

/-! ## When a call does what it is for -/

/-- A call with a name that fits succeeds and leaves that name in `object_info`, the same that the object has when
it is opened again; a name that is too long is refused and changes nothing. -/
def Renames (s : OpenObject) (name : CString) : Prop :=
  if name.bytes.length < objNameMaxSize then
    Ends (ofsSetObjectName name) s
      (fun _ s' => s'.nameString = name.bytes ∧ ∀ cached buf,
        Ends (reopen cached buf) s' (fun _ s'' => s''.nameString = s'.nameString) fun _ _ => False)
      fun _ _ => False
  else Ends (ofsSetObjectName name) s (fun _ _ => False) fun e s' => e = .parameter ∧ s' = s

/-- The name is at least as long as the one in `object_info`, or too long even as a `uint32_t`. -/
def Covers (s : OpenObject) (name : CString) : Prop :=
  if name.bytes.length < objNameMaxSize then s.nameString.length ≤ name.bytes.length
  else objNameMaxSize ≤ uint32 name.bytes.length

/-- What a call with a name that fits leaves in `object_info` and what the object is called when it is opened
again. -/
theorem setObjectName_ok {s : OpenObject} {l : Bytes} (h : Tidy s l) (name : CString)
    (hshort : name.bytes.length < objNameMaxSize) : ∃ s', ofsSetObjectName name s = .ok () s' ∧
      s'.nameString = name.bytes ++ s.nameString.drop name.bytes.length ∧
      ∀ cached buf, Ends (reopen cached buf) s' (fun _ s'' => s''.nameString = name.bytes) fun _ _ => False := by
  have hsmall : uint32 name.bytes.length = name.bytes.length := Nat.mod_eq_of_lt (hshort.trans (by decide))
  have hcall : ofsSetObjectName name s = .ok () (s.setName name name.bytes.length) := by
    rw [ofsSetObjectName_eq, hsmall, if_neg (not_le.mpr hshort)]
  obtain ⟨htidy, hname⟩ := h.setName name le_rfl hshort
  rw [List.take_length] at htidy hname
  exact ⟨_, hcall, hname, fun cached buf => (reopen_ends htidy cached buf).mono (fun _ _ h => h.2) fun _ _ h => h⟩

theorem renames_iff {s : OpenObject} {l : Bytes} (h : Tidy s l) (name : CString) :
    Renames s name ↔ Covers s name := by
  unfold Renames Covers
  split_ifs with hshort
  · obtain ⟨s', hcall, hname, hreopen⟩ := setObjectName_ok h name hshort
    rw [ends_of_ok hcall, hname]
    constructor
    · rintro ⟨heq, -⟩
      exact List.drop_eq_nil_iff.mp (List.append_cancel_left (heq.trans (List.append_nil _).symm))
    · intro hle
      rw [List.drop_eq_nil_of_le hle, List.append_nil]
      exact ⟨rfl, hreopen⟩
  · unfold Ends
    rw [ofsSetObjectName_eq]
    split_ifs with hlong
    · exact ⟨fun _ => hlong, fun _ => ⟨rfl, rfl⟩⟩
    · exact ⟨False.elim, fun h => absurd h hlong⟩

/-- In every sequence of calls, each call does what it is for exactly if the name covers the one before. -/
theorem rename_exact {s : OpenObject} (h : Reachable s) (names : List CString) (name : CString) :
    Renames (afterCalls s names) name ↔ Covers (afterCalls s names) name := by
  obtain ⟨l, htidy⟩ := (h.afterCalls names).tidy
  exact renames_iff htidy name

/-- The object 128 when it is created. -/
def objectCreated : OpenObject := createObjectAtInode (fun _ => 0) (fun _ => 0) 128 5

theorem defaultName_128 : defaultName 128 = [79, 66, 74, 49, 50, 56] := by
  norm_num [defaultName, decimal, objNameMaxSize]
  decide

theorem objectCreated_tidy : Tidy objectCreated (defaultName 128) ∧ objectCreated.nameString = [79, 66, 74, 49, 50, 56] :=
  ⟨createObjectAtInode_tidy _ _ _ _,
    (nameString_of_padded (initInode_named (fun _ => 0) 128).padded).trans defaultName_128⟩

theorem rename_exact_longer : Renames (afterCalls objectCreated []) ⟨[76, 79, 78, 71, 69, 82, 46], by decide⟩ := by
  refine (rename_exact (.create _ _ _ _) [] _).mpr ?_
  show objectCreated.nameString.length ≤ 7
  rw [objectCreated_tidy.2]
  decide

/-- `OBJ128` renamed to `A` is `ABJ128` in `object_info`, and `A` when it is opened again. -/
theorem rename_shorter : ∃ s', ofsSetObjectName ⟨[65], by decide⟩ objectCreated = .ok () s' ∧
    s'.nameString = [65, 66, 74, 49, 50, 56] ∧
    ∀ cached buf, Ends (reopen cached buf) s' (fun _ s'' => s''.nameString = [65]) fun _ _ => False := by
  obtain ⟨htidy, hname⟩ := objectCreated_tidy
  obtain ⟨s', hcall, hname', hreopen⟩ := setObjectName_ok htidy ⟨[65], by decide⟩ (by decide)
  rw [hname] at hname'
  exact ⟨s', hcall, hname', hreopen⟩

end IndexFs.Object.Names
