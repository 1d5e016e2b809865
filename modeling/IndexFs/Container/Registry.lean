import IndexFs.Collate.Rules
import IndexFs.Lib.CString

/-!
# The registry of containers

`ofs_create_container`, `ofs_open_container`, `ofs_get_container_handle` and
`ofs_close_container` of `object_system/ofs_container_manager.c` (lines 47–57,
359–442 and 455–637). `g_container_list` has the open containers. It is searched with
`os_collate_ansi_string`, which does not tell `a` from `A`; the files are made and opened
under the name as it is given.

What becomes of the calls into the layers below is a parameter (`Below`). A handle is
an allocation: it is not used twice. The AVL tree is a list.

Results:

* `avlFind_eq`: the search finds the first container whose name folds to the same.
* `perform_effect`: what a call can do to the registry.
* `containers_identified`: in a run whose names are told apart by the fold, a handle
  stands for the file of the name it was asked for under.
-/

namespace IndexFs.ContainerManager

open Collate

/-! ## Model of the code -/

/-- `OFS_NAME_SIZE`. -/
def ofsNameSize : ℕ := 256

/-- `container_handle_t`: the name, `ref_cnt` and the file that `disk_hnd` is open on. -/
structure Container where
  handle : ℕ
  name : Bytes
  refCnt : ℕ
  disk : Option Bytes
  deriving DecidableEq, Repr

/-- `g_container_list`, and the next handle that `OS_MALLOC` gives. -/
structure System where
  registry : List Container
  nextHandle : ℕ
  deriving DecidableEq, Repr

/-- How a call fails: with `-INDEX_ERR_IS_OPENED` and the handle in `*ct`, or with another code. -/
inductive CallError
  | isOpened (handle : ℕ)
  | code (e : ErrorCode)
  deriving DecidableEq, Repr

abbrev RegistryM := EStateM CallError System

/-- The calls into the layers below. -/
inductive Layer
  | initSuperBlock
  | diskCreate
  | writeSuperBlock
  | createSystemObjects
  | updateSuperBlock
  | diskOpen
  | readSuperBlock
  | checkSuperBlock
  | openSystemObjects
  deriving DecidableEq, Repr

/-- What becomes of them: is there memory for a handle, and the code of each of the others, if it fails. -/
structure Below where
  memory : Bool
  code : Layer → Option ErrorCode

/-- `compare_container2` (lines 53–57). -/
def compareContainer2 (ctName : Bytes) (ct : Container) : Except ErrorCode ℤ := osCollateAnsiString ctName ct.name

/-- `avl_find(g_container_list, compare_container2, ct_name)`. -/
def avlFind (ctName : Bytes) : List Container → Except CallError (Option Container)
  | [] => .ok none
  | ct :: l =>
    match compareContainer2 ctName ct with
    | .error e => .error (.code e)
    | .ok r => if r = 0 then .ok (some ct) else avlFind ctName l

/-- `init_container_resource` (lines 149–176). `avl_add` panics if the tree has the name. -/
def initContainerResource (below : Below) (ctName : Bytes) : RegistryM ℕ := do
  if !below.memory then throw (.code .allocateMemory)
  let s ← get
  let name := ctName.take ofsNameSize
  match ← fromExcept (avlFind name s.registry) with
  | some _ => throw (.code .assertion)
  | none =>
    set { registry := s.registry ++ [⟨s.nextHandle, name, 1, none⟩], nextHandle := s.nextHandle + 1 : System }
    return s.nextHandle

/-- `close_container` (lines 549–579) takes the container out of the registry. -/
def System.closeContainer (s : System) (ct : ℕ) : System :=
  { s with registry := s.registry.filter fun c => c.handle ≠ ct }

/-- Change the container of a handle. -/
def System.modifyContainer (s : System) (ct : ℕ) (f : Container → Container) : System :=
  { s with registry := s.registry.map fun c => if c.handle = ct then f c else c }

/-- A call into a layer below; if it fails the container is closed. -/
def layer (below : Below) (ct : ℕ) (l : Layer) : RegistryM Unit :=
  match below.code l with
  | none => pure ()
  | some e => do
    modify fun s => s.closeContainer ct
    throw (.code e)

/-- `tmp_ct->disk_hnd` is open on the file. -/
def setDisk (ct : ℕ) (file : Bytes) : RegistryM Unit :=
  modify fun s => s.modifyContainer ct fun c => { c with disk := some file }

/-- `ofs_create_container_nolock` (lines 359–442). -/
def ofsCreateContainer (below : Below) (ctName : Bytes) (totalSectors : ℕ) : RegistryM ℕ :=
  if totalSectors = 0 then throw (.code .parameter)
  else if ctName.length ≥ ofsNameSize then throw (.code .parameter)
  else do
    match ← fromExcept (avlFind ctName (← get).registry) with
    | some ct => throw (.isOpened ct.handle)
    | none =>
      let ct ← initContainerResource below ctName
      layer below ct .initSuperBlock
      layer below ct .diskCreate
      setDisk ct ctName
      layer below ct .writeSuperBlock
      layer below ct .createSystemObjects
      layer below ct .updateSuperBlock
      return ct

/-- `ofs_open_nolock` (lines 455–534). -/
def ofsOpenContainer (below : Below) (ctName : Bytes) : RegistryM ℕ :=
  if ctName.length ≥ ofsNameSize then throw (.code .parameter)
  else do
    match ← fromExcept (avlFind ctName (← get).registry) with
    | some ct =>
      modify fun s => s.modifyContainer ct.handle fun c => { c with refCnt := uint32 (c.refCnt + 1) }
      return ct.handle
    | none =>
      let ct ← initContainerResource below ctName
      layer below ct .diskOpen
      setDisk ct ctName
      layer below ct .readSuperBlock
      layer below ct .checkSuperBlock
      layer below ct .openSystemObjects
      return ct

/-- `ofs_get_container_handle` (lines 621–637). -/
def ofsGetContainerHandle (ctName : Bytes) : RegistryM (Option ℕ) := do
  let ct ← fromExcept (avlFind ctName (← get).registry)
  return ct.map Container.handle

/-- `ofs_close_nolock` (lines 581–608). A handle that is not in the registry is freed memory. -/
def ofsCloseContainer (ct : ℕ) : RegistryM Unit := do
  match (← get).registry.find? (·.handle = ct) with
  | none => throw (.code .memory)
  | some c =>
    if c.refCnt = 0 then return ()
    else if c.refCnt - 1 ≠ 0 then
      modify fun s => s.modifyContainer ct fun c => { c with refCnt := c.refCnt - 1 }
    else modify fun s => s.closeContainer ct

/-! ## The search -/

/-- What is left of a name that `os_collate_ansi_string` looks at. -/
def fold (name : Bytes) : List ℤ := name.map fun c => osToUpper (toChar c)

/-- What is always true of the registry: there is one container for a handle, which was given out, and no name
is empty. -/
structure Tidy (s : System) : Prop where
  fresh : ∀ c ∈ s.registry, c.handle < s.nextHandle
  nodup : (s.registry.map Container.handle).Nodup
  nonempty : ∀ c ∈ s.registry, c.name ≠ []

section Search

variable {s s' : System} {name : Bytes} {below : Below}

theorem compareContainer2_eq {c : Container} (hname : name ≠ []) (hc : c.name ≠ []) :
    compareContainer2 name c = .ok (collateOrd (fold name) (fold c.name)) := by
  unfold compareContainer2 osCollateAnsiString
  rw [assertNonempty_ok hname hc, collateLoop_eq_ord]
  rfl

theorem avlFind_eq {l : List Container} (hname : name ≠ []) (hl : ∀ c ∈ l, c.name ≠ []) :
    avlFind name l = .ok (l.find? fun c => fold name = fold c.name) := by
  induction l with
  | nil => rfl
  | cons c l ih =>
    unfold avlFind
    rw [compareContainer2_eq hname (hl c List.mem_cons_self), List.find?_cons]
    dsimp only
    by_cases h : fold name = fold c.name
    · rw [if_pos (by simpa using h), decide_eq_true h]
    · rw [if_neg (by simpa using h), decide_eq_false h, ih fun c hc => hl c (List.mem_cons_of_mem _ hc)]

/-- The container that a name leads to. -/
def System.lookup (s : System) (name : Bytes) : Option Container :=
  s.registry.find? fun c => fold name = fold c.name

theorem lookup_some {c : Container} (h : s.lookup name = some c) : c ∈ s.registry ∧ fold name = fold c.name :=
  ⟨List.mem_of_find?_eq_some h, by simpa using List.find?_some h⟩

theorem Tidy.avlFind (h : Tidy s) (hname : name ≠ []) : avlFind name s.registry = .ok (s.lookup name) :=
  avlFind_eq hname h.nonempty

/-! ## Containers that are made -/

/-- The registry with a new container. -/
def System.add (s : System) (name : Bytes) (disk : Option Bytes) : System :=
  { registry := s.registry ++ [⟨s.nextHandle, name, 1, disk⟩], nextHandle := s.nextHandle + 1 }

/-- The registry after a container was made and closed again. -/
def System.skip (s : System) : System := { s with nextHandle := s.nextHandle + 1 }

theorem Tidy.fresh_filter (h : Tidy s) :
    s.registry.filter (fun c => c.handle ≠ s.nextHandle) = s.registry :=
  List.filter_eq_self.mpr fun c hc => decide_eq_true (h.fresh c hc).ne

theorem Tidy.closeContainer_add (h : Tidy s) (disk : Option Bytes) :
    (s.add name disk).closeContainer s.nextHandle = s.skip := by
  unfold System.closeContainer System.add System.skip
  rw [List.filter_append, h.fresh_filter]
  simp

theorem Tidy.modifyContainer_add (h : Tidy s) (disk : Option Bytes) (file : Bytes) :
    (s.add name disk).modifyContainer s.nextHandle (fun c => { c with disk := some file }) = s.add name (some file) := by
  have hold : s.registry.map (fun c => if c.handle = s.nextHandle then { c with disk := some file } else c) =
      s.registry := by
    conv_rhs => rw [← List.map_id s.registry]
    exact List.map_congr_left fun c hc => if_neg (h.fresh c hc).ne
  unfold System.modifyContainer System.add
  rw [List.map_append, hold]
  simp

/-- How a call that makes a container fails: with a code, and the registry as it was. -/
def Fails (s : System) (e : CallError) (s' : System) : Prop :=
  (∃ code, e = .code code) ∧ (s' = s ∨ s' = s.skip)

theorem initContainerResource_ends (h : Tidy s) (hname : name ≠ []) (hlen : name.length < ofsNameSize)
    (hnone : s.lookup name = none) :
    Ends (initContainerResource below name) s (fun ct s' => ct = s.nextHandle ∧ s' = s.add name none) (Fails s) := by
  unfold initContainerResource
  rw [List.take_of_length_le hlen.le]
  cases below.memory with
  | false => exact ⟨⟨_, rfl⟩, .inl rfl⟩
  | true =>
    show Ends (get >>= fun s => _) s _ _
    rw [ends_bind, ends_get, ends_bind, h.avlFind hname, hnone]
    exact ⟨rfl, rfl⟩

theorem layer_ends (h : Tidy s) (disk : Option Bytes) (l : Layer) :
    Ends (layer below s.nextHandle l) (s.add name disk) (fun _ s' => s' = s.add name disk) (Fails s) := by
  unfold layer
  cases below.code l with
  | none => rfl
  | some e => exact ⟨⟨_, rfl⟩, .inr (h.closeContainer_add disk)⟩

theorem setDisk_ends {F : CallError → System → Prop} (h : Tidy s) (file : Bytes) :
    Ends (setDisk s.nextHandle file) (s.add name none) (fun _ s' => s' = s.add name (some file)) F :=
  h.modifyContainer_add none file

/-- A call that makes a container, with a name that leads to none. -/
theorem ofsCreateContainer_new (h : Tidy s) (hname : name ≠ []) (hnone : s.lookup name = none) (total : ℕ) :
    Ends (ofsCreateContainer below name total) s
      (fun ct s' => ct = s.nextHandle ∧ s' = s.add name (some name)) (Fails s) := by
  unfold ofsCreateContainer
  split_ifs with _ hlen
  · exact ⟨⟨_, rfl⟩, .inl rfl⟩
  · exact ⟨⟨_, rfl⟩, .inl rfl⟩
  · rw [ends_bind, ends_get, ends_bind, h.avlFind hname, hnone]
    refine (initContainerResource_ends h hname (not_le.mp hlen) hnone).seq ?_
    rintro _ _ ⟨rfl, rfl⟩
    refine (layer_ends h none _).seq ?_
    rintro _ _ rfl
    refine (layer_ends h none _).seq ?_
    rintro _ _ rfl
    refine (setDisk_ends h name).seq ?_
    rintro _ _ rfl
    refine (layer_ends h _ _).seq ?_
    rintro _ _ rfl
    refine (layer_ends h _ _).seq ?_
    rintro _ _ rfl
    refine (layer_ends h _ _).seq ?_
    rintro _ _ rfl
    exact ⟨rfl, rfl⟩

theorem ofsOpenContainer_new (h : Tidy s) (hname : name ≠ []) (hnone : s.lookup name = none) :
    Ends (ofsOpenContainer below name) s
      (fun ct s' => ct = s.nextHandle ∧ s' = s.add name (some name)) (Fails s) := by
  unfold ofsOpenContainer
  split_ifs with hlen
  · exact ⟨⟨_, rfl⟩, .inl rfl⟩
  · rw [ends_bind, ends_get, ends_bind, h.avlFind hname, hnone]
    refine (initContainerResource_ends h hname (not_le.mp hlen) hnone).seq ?_
    rintro _ _ ⟨rfl, rfl⟩
    refine (layer_ends h none _).seq ?_
    rintro _ _ rfl
    refine (setDisk_ends h name).seq ?_
    rintro _ _ rfl
    refine (layer_ends h _ _).seq ?_
    rintro _ _ rfl
    refine (layer_ends h _ _).seq ?_
    rintro _ _ rfl
    refine (layer_ends h _ _).seq ?_
    rintro _ _ rfl
    exact ⟨rfl, rfl⟩

end Search

/-! ## Calls -/

/-- A name that a caller gives. -/
structure FileName extends CString where
  nonempty : bytes ≠ []
  short : bytes.length < ofsNameSize

/-- A call, with what becomes of the layers below. -/
inductive Call
  | createContainer (below : Below) (name : FileName) (totalSectors : ℕ)
  | openContainer (below : Below) (name : FileName)
  | getHandle (name : FileName)
  | closeContainer (ct : ℕ)

/-- The name in a call. -/
def Call.name : Call → Option Bytes
  | .createContainer _ name _ | .openContainer _ name | .getHandle name => some name.bytes
  | .closeContainer _ => none

/-- Does the handle that the call returns count as opened? -/
def Call.opens : Call → Bool
  | .createContainer _ _ _ | .openContainer _ _ => true
  | .getHandle _ | .closeContainer _ => false

/-- The handle that the call closes. -/
def Call.closes : Call → Option ℕ
  | .closeContainer ct => some ct
  | _ => none

/-- A call and the handle it returns. -/
def perform : Call → RegistryM (Option ℕ)
  | .createContainer below name totalSectors => do return some (← ofsCreateContainer below name.bytes totalSectors)
  | .openContainer below name => do return some (← ofsOpenContainer below name.bytes)
  | .getHandle name => ofsGetContainerHandle name.bytes
  | .closeContainer ct => do
    ofsCloseContainer ct
    return none

/-- The registry after a close of a container of it. -/
def System.release (s : System) (c : Container) : System :=
  if c.refCnt = 0 then s
  else if c.refCnt - 1 ≠ 0 then s.modifyContainer c.handle fun c => { c with refCnt := c.refCnt - 1 }
  else s.closeContainer c.handle

/-- What a call can do to the registry. -/
inductive Effect (s : System) : Call → Except CallError (Option ℕ) → System → Prop
  | failed {call : Call} {e : CallError} {s' : System} : s' = s ∨ s' = s.skip →
      (∀ ct, e = .isOpened ct → ∃ name c, call.name = some name ∧ s.lookup name = some c) →
      Effect s call (.error e) s'
  | made {call : Call} {name : FileName} : call.name = some name.bytes → call.opens = true →
      Effect s call (.ok (some s.nextHandle)) (s.add name.bytes (some name.bytes))
  | shared {below : Below} {name : FileName} {c : Container} : s.lookup name.bytes = some c →
      Effect s (.openContainer below name) (.ok (some c.handle))
        (s.modifyContainer c.handle fun c => { c with refCnt := uint32 (c.refCnt + 1) })
  | found {name : FileName} : Effect s (.getHandle name) (.ok ((s.lookup name.bytes).map Container.handle)) s
  | closed {c : Container} : c ∈ s.registry → Effect s (.closeContainer c.handle) (.ok none) (s.release c)

section Calls

variable {s : System}

theorem Fails.effect {s' : System} {call : Call} {e : CallError} (h : Fails s e s') : Effect s call (.error e) s' := by
  obtain ⟨⟨code, rfl⟩, hs⟩ := h
  exact .failed hs fun ct hct => nomatch hct

theorem perform_effect (h : Tidy s) (call : Call) :
    Ends (perform call) s (fun r s' => Effect s call (.ok r) s') fun e s' => Effect s call (.error e) s' := by
  cases call with
  | createContainer below name total =>
    unfold perform
    cases hlookup : s.lookup name.bytes with
    | none =>
      refine (ofsCreateContainer_new h name.nonempty hlookup total).seq' ?_ fun _ _ h => h.effect
      rintro _ _ ⟨rfl, rfl⟩
      exact .made rfl rfl
    | some c =>
      rw [ends_bind]
      unfold ofsCreateContainer
      split_ifs
      · exact .failed (.inl rfl) fun ct hct => nomatch hct
      · exact .failed (.inl rfl) fun ct hct => nomatch hct
      · rw [ends_bind, ends_get, ends_bind, h.avlFind name.nonempty, hlookup]
        exact .failed (.inl rfl) fun ct _ => ⟨_, c, rfl, hlookup⟩
  | openContainer below name =>
    unfold perform
    cases hlookup : s.lookup name.bytes with
    | none =>
      refine (ofsOpenContainer_new h name.nonempty hlookup).seq' ?_ fun _ _ h => h.effect
      rintro _ _ ⟨rfl, rfl⟩
      exact .made rfl rfl
    | some c =>
      rw [ends_bind]
      unfold ofsOpenContainer
      rw [if_neg (not_le.mpr name.short), ends_bind, ends_get, ends_bind, h.avlFind name.nonempty, hlookup]
      exact .shared hlookup
  | getHandle name =>
    unfold perform ofsGetContainerHandle
    rw [ends_bind, ends_get, ends_bind, h.avlFind name.nonempty]
    exact .found
  | closeContainer ct =>
    unfold perform ofsCloseContainer
    rw [ends_bind, ends_bind, ends_get]
    cases hfind : s.registry.find? (·.handle = ct) with
    | none => exact .failed (.inl rfl) fun ct hct => nomatch hct
    | some c =>
      obtain rfl : c.handle = ct := by simpa using List.find?_some hfind
      have heffect : Effect s (.closeContainer c.handle) (.ok none) (s.release c) :=
        .closed (List.mem_of_find?_eq_some hfind)
      unfold System.release at heffect
      dsimp only
      split_ifs at heffect ⊢ <;> exact heffect

end Calls

/-! ## Runs -/

/-- A call of a run: the registry before it, what it returned, and the registry after it. -/
structure Event where
  before : System
  call : Call
  result : Except CallError (Option ℕ)
  after : System

/-- The event is what the call does. -/
def Event.Happens (e : Event) : Prop :=
  Ends (perform e.call) e.before (fun r s => e.result = .ok r ∧ e.after = s) fun err s => e.result = .error err ∧ e.after = s

/-- The runs from an empty registry, by the registry they end with. -/
inductive Run : List Event → System → Prop
  | start : Run [] ⟨[], 0⟩
  | step {es : List Event} (e : Event) : Run es e.before → e.Happens → Run (es ++ [e]) e.after

/-- The number of times the handle was opened. -/
def opens (ct : ℕ) (es : List Event) : ℕ :=
  es.countP fun e => e.call.opens && decide (e.result = .ok (some ct))

/-- The number of times it was closed. -/
def closes (ct : ℕ) (es : List Event) : ℕ :=
  es.countP fun e => decide (e.call.closes = some ct) && decide (e.result = .ok none)

/-- The condition on a call: the fold tells its name from those of the open containers, and there is room for
one more in `ref_cnt`. -/
def Meets (s : System) (call : Call) : Prop :=
  (∀ name, call.name = some name → ∀ c ∈ s.registry, fold name = fold c.name → name = c.name) ∧
    ∀ below name, call = .openContainer below name → ∀ c ∈ s.registry, c.name = name.bytes → c.refCnt + 1 < 2 ^ 32

/-- Containers are identified by their file name. -/
structure Identified (es : List Event) (s : System) : Prop where
  /-- A handle is open on the file of the name it was returned for. -/
  found : ∀ e ∈ es, ∀ ct, e.result = .ok (some ct) →
    ∃ name, e.call.name = some name ∧ ∃ c ∈ e.after.registry, c.handle = ct ∧ c.disk = some name
  /-- Two names get the same handle only if they are equal. -/
  same : ∀ e ∈ es, ∀ e' ∈ es, ∀ ct, e.result = .ok (some ct) → e'.result = .ok (some ct) → e.call.name = e'.call.name
  /-- A name is refused as open only if it is open. -/
  refused : ∀ e ∈ es, ∀ ct, e.result = .error (.isOpened ct) →
    ∃ name, e.call.name = some name ∧ ∃ c ∈ e.before.registry, c.disk = some name
  /-- `ref_cnt` is the number of opens that were not closed. -/
  count : ∀ c ∈ s.registry, opens c.handle es = closes c.handle es + c.refCnt ∧ 0 < c.refCnt
  /-- A handle that is not in the registry was closed as often as it was opened. -/
  left : ∀ ct, (∀ c ∈ s.registry, c.handle ≠ ct) → opens ct es = closes ct es

/-! ## The invariant of a run -/

/-- What is true of an event: the handle it returned belongs to the name of the call, and a name that is refused
belongs to an open container. -/
structure EventOk (owner : ℕ → Bytes) (next : ℕ) (e : Event) : Prop where
  found : ∀ ct, e.result = .ok (some ct) → ct < next ∧ e.call.name = some (owner ct) ∧
    ∃ c ∈ e.after.registry, c.handle = ct ∧ c.disk = some (owner ct)
  refused : ∀ ct, e.result = .error (.isOpened ct) →
    ∃ name, e.call.name = some name ∧ ∃ c ∈ e.before.registry, c.disk = some name

/-- The invariant of a run; `owner` is the name a handle was made for. -/
structure Inv (owner : ℕ → Bytes) (es : List Event) (s : System) : Prop where
  tidy : Tidy s
  disk : ∀ c ∈ s.registry, c.disk = some c.name ∧ c.name = owner c.handle
  count : ∀ c ∈ s.registry, opens c.handle es = closes c.handle es + c.refCnt ∧ 0 < c.refCnt
  left : ∀ ct, (∀ c ∈ s.registry, c.handle ≠ ct) → opens ct es = closes ct es
  events : ∀ e ∈ es, EventOk owner s.nextHandle e

section Inv

variable {owner : ℕ → Bytes} {es : List Event} {e : Event} {s s' : System} {call : Call}

theorem opens_append (ct : ℕ) : opens ct (es ++ [e]) =
    opens ct es + if e.call.opens = true ∧ e.result = .ok (some ct) then 1 else 0 := by
  unfold opens
  rw [List.countP_append, List.countP_singleton]
  simp

theorem closes_append (ct : ℕ) : closes ct (es ++ [e]) =
    closes ct es + if e.call.closes = some ct ∧ e.result = .ok none then 1 else 0 := by
  unfold closes
  rw [List.countP_append, List.countP_singleton]
  simp

theorem mem_modifyContainer {ct : ℕ} {f : Container → Container} {c' : Container} :
    c' ∈ (s.modifyContainer ct f).registry ↔ ∃ c ∈ s.registry, (if c.handle = ct then f c else c) = c' :=
  List.mem_map

/-- There is one container for a handle. -/
theorem Tidy.unique (h : Tidy s) {c c' : Container} (hc : c ∈ s.registry) (hc' : c' ∈ s.registry)
    (heq : c.handle = c'.handle) : c = c' :=
  List.inj_on_of_nodup_map h.nodup hc hc' heq

theorem Tidy.modifyContainer_congr (h : Tidy s) {c : Container} (hc : c ∈ s.registry) {f g : Container → Container}
    (hfg : f c = g c) : s.modifyContainer c.handle f = s.modifyContainer c.handle g := by
  unfold System.modifyContainer
  congr 1
  refine List.map_congr_left fun d hd => ?_
  by_cases heq : d.handle = c.handle
  · rw [if_pos heq, if_pos heq, h.unique hd hc heq, hfg]
  · rw [if_neg heq, if_neg heq]

theorem Tidy.modifyContainer (h : Tidy s) {ct : ℕ} {f : Container → Container}
    (hf : ∀ c, (f c).handle = c.handle ∧ (f c).name = c.name) : Tidy (s.modifyContainer ct f) := by
  have hkept : ∀ c : Container, (if c.handle = ct then f c else c).handle = c.handle := by
    intro c
    split_ifs
    · exact (hf c).1
    · rfl
  refine ⟨fun c' hc' => ?_, ?_, fun c' hc' => ?_⟩
  · obtain ⟨c, hc, rfl⟩ := mem_modifyContainer.mp hc'
    rw [hkept]
    exact h.fresh c hc
  · have hhandles : (s.modifyContainer ct f).registry.map Container.handle = s.registry.map Container.handle := by
      unfold System.modifyContainer
      rw [List.map_map]
      exact List.map_congr_left fun c _ => hkept c
    rw [hhandles]
    exact h.nodup
  · obtain ⟨c, hc, rfl⟩ := mem_modifyContainer.mp hc'
    split_ifs
    · rw [(hf c).2]
      exact h.nonempty c hc
    · exact h.nonempty c hc

theorem EventOk.mono {next next' : ℕ} (h : EventOk owner next e) (hnext : next ≤ next') : EventOk owner next' e :=
  ⟨fun ct hct => ⟨(h.found ct hct).1.trans_le hnext, (h.found ct hct).2⟩, h.refused⟩

/-- A new container takes a handle that no event has. -/
theorem EventOk.update {next : ℕ} (h : EventOk owner next e) (name : Bytes) :
    EventOk (Function.update owner next name) (next + 1) e := by
  refine ⟨fun ct hct => ?_, h.refused⟩
  obtain ⟨hlt, hname, hfile⟩ := h.found ct hct
  rw [Function.update_of_ne hlt.ne]
  exact ⟨Nat.lt_succ_of_lt hlt, hname, hfile⟩

theorem events_append {next : ℕ} (h : ∀ e ∈ es, EventOk owner next e) (he : EventOk owner next e) :
    ∀ e' ∈ es ++ [e], EventOk owner next e' := by
  intro e' he'
  rcases List.mem_append.mp he' with h' | h'
  · exact h e' h'
  · rw [List.mem_singleton.mp h']
    exact he

/-- The name of a call that leads to a container is the name of the container. -/
theorem Inv.lookup (h : Inv owner es s) (hmeets : Meets s call) {name : Bytes} (hname : call.name = some name)
    {c : Container} (hc : s.lookup name = some c) : c ∈ s.registry ∧ c.name = name ∧ c.disk = some name ∧
      owner c.handle = name := by
  obtain ⟨hmem, hfold⟩ := lookup_some hc
  obtain rfl := hmeets.1 name hname c hmem hfold
  exact ⟨hmem, rfl, (h.disk c hmem).1, (h.disk c hmem).2.symm⟩

/-- An event that opens and closes nothing. -/
theorem Inv.counts_append (h : Inv owner es s) (hopens : ∀ ct, ¬ (e.call.opens = true ∧ e.result = .ok (some ct)))
    (hcloses : ∀ ct, ¬ (e.call.closes = some ct ∧ e.result = .ok none)) :
    (∀ c ∈ s.registry, opens c.handle (es ++ [e]) = closes c.handle (es ++ [e]) + c.refCnt ∧ 0 < c.refCnt) ∧
      ∀ ct, (∀ c ∈ s.registry, c.handle ≠ ct) → opens ct (es ++ [e]) = closes ct (es ++ [e]) := by
  have hsame : ∀ ct, opens ct (es ++ [e]) = opens ct es ∧ closes ct (es ++ [e]) = closes ct es := by
    intro ct
    rw [opens_append, closes_append, if_neg (hopens ct), if_neg (hcloses ct)]
    exact ⟨rfl, rfl⟩
  refine ⟨fun c hc => ?_, fun ct hct => ?_⟩
  · rw [(hsame _).1, (hsame _).2]
    exact h.count c hc
  · rw [(hsame _).1, (hsame _).2]
    exact h.left ct hct

theorem Inv.failed (h : Inv owner es s) (hmeets : Meets s call) {err : CallError} (hs : s' = s ∨ s' = s.skip)
    (hopened : ∀ ct, err = .isOpened ct → ∃ name c, call.name = some name ∧ s.lookup name = some c) :
    Inv owner (es ++ [⟨s, call, .error err, s'⟩]) s' := by
  have hreg : s'.registry = s.registry ∧ s.nextHandle ≤ s'.nextHandle := by
    rcases hs with rfl | rfl
    · exact ⟨rfl, le_rfl⟩
    · exact ⟨rfl, Nat.le_succ _⟩
  obtain ⟨hcount, hleft⟩ := h.counts_append (e := ⟨s, call, .error err, s'⟩) (fun _ h => nomatch h.2)
    fun _ h => nomatch h.2
  rw [← hreg.1] at hcount hleft
  refine ⟨⟨?_, ?_, ?_⟩, ?_, hcount, hleft, events_append (fun e he => (h.events e he).mono hreg.2) ⟨?_, ?_⟩⟩
  · intro c hc
    rw [hreg.1] at hc
    exact (h.tidy.fresh c hc).trans_le hreg.2
  · rw [hreg.1]
    exact h.tidy.nodup
  · rw [hreg.1]
    exact h.tidy.nonempty
  · rw [hreg.1]
    exact h.disk
  · intro ct hct
    cases hct
  · intro ct hct
    obtain ⟨name, c, hname, hc⟩ := hopened ct (Except.error.inj hct)
    obtain ⟨hmem, -, hdisk, -⟩ := h.lookup hmeets hname hc
    exact ⟨name, hname, c, hmem, hdisk⟩

theorem Inv.made (h : Inv owner es s) {name : FileName} (hname : call.name = some name.bytes)
    (hopens : call.opens = true) :
    Inv (Function.update owner s.nextHandle name.bytes)
      (es ++ [⟨s, call, .ok (some s.nextHandle), s.add name.bytes (some name.bytes)⟩])
      (s.add name.bytes (some name.bytes)) := by
  have hmem : ∀ {c : Container}, c ∈ (s.add name.bytes (some name.bytes)).registry ↔
      c ∈ s.registry ∨ c = ⟨s.nextHandle, name.bytes, 1, some name.bytes⟩ := by
    intro c
    unfold System.add
    rw [List.mem_append, List.mem_singleton]
  have hclosed : call.closes = none := by
    cases call <;> first | rfl | cases hopens
  have hcounts : ∀ ct, opens ct (es ++ [⟨s, call, .ok (some s.nextHandle), s.add name.bytes (some name.bytes)⟩]) =
      opens ct es + (if s.nextHandle = ct then 1 else 0) ∧
      closes ct (es ++ [⟨s, call, .ok (some s.nextHandle), s.add name.bytes (some name.bytes)⟩]) = closes ct es := by
    intro ct
    rw [opens_append, closes_append]
    simp [hopens]
  have hnew : ∀ c ∈ s.registry, c.handle ≠ s.nextHandle := fun c hc => (h.tidy.fresh c hc).ne
  refine ⟨⟨?_, ?_, ?_⟩, ?_, ?_, ?_, events_append (fun e he => (h.events e he).update name.bytes) ⟨?_, ?_⟩⟩
  · intro c hc
    rcases hmem.mp hc with hc | rfl
    · exact Nat.lt_succ_of_lt (h.tidy.fresh c hc)
    · exact Nat.lt_succ_self _
  · unfold System.add
    rw [List.map_append]
    refine List.nodup_append.mpr ⟨h.tidy.nodup, List.nodup_singleton _, ?_⟩
    intro a ha b hb
    obtain ⟨c, hc, rfl⟩ := List.mem_map.mp ha
    rw [List.map_singleton, List.mem_singleton] at hb
    rw [hb]
    exact hnew c hc
  · intro c hc
    rcases hmem.mp hc with hc | rfl
    · exact h.tidy.nonempty c hc
    · exact name.nonempty
  · intro c hc
    rcases hmem.mp hc with hc | rfl
    · rw [Function.update_of_ne (hnew c hc)]
      exact h.disk c hc
    · rw [Function.update_self]
      exact ⟨rfl, rfl⟩
  · intro c hc
    rw [(hcounts _).1, (hcounts _).2]
    rcases hmem.mp hc with hc | rfl
    · rw [if_neg (hnew c hc).symm]
      exact h.count c hc
    · rw [if_pos rfl, h.left _ hnew]
      exact ⟨rfl, Nat.one_pos⟩
  · intro ct hct
    rw [(hcounts _).1, (hcounts _).2, if_neg (hct _ (hmem.mpr (.inr rfl)))]
    exact h.left ct fun c hc => hct c (hmem.mpr (.inl hc))
  · intro ct hct
    obtain rfl := Option.some.inj (Except.ok.inj hct)
    rw [Function.update_self]
    exact ⟨Nat.lt_succ_self _, hname, _, hmem.mpr (.inr rfl), rfl, rfl⟩
  · intro ct hct
    cases hct

/-- A change of `ref_cnt` in one container. -/
theorem Inv.recount (h : Inv owner es s) {c : Container} (hc : c ∈ s.registry) {n : ℕ} (hn : 0 < n)
    (hafter : e.after = s.modifyContainer c.handle fun c => { c with refCnt := n })
    (hcount : opens c.handle (es ++ [e]) = closes c.handle (es ++ [e]) + n)
    (hother : ∀ ct, ct ≠ c.handle → opens ct (es ++ [e]) = opens ct es ∧ closes ct (es ++ [e]) = closes ct es)
    (hevent : EventOk owner s.nextHandle e) : Inv owner (es ++ [e]) e.after := by
  have hmem : ∀ {c' : Container}, c' ∈ e.after.registry →
      (∃ d ∈ s.registry, d.handle ≠ c.handle ∧ c' = d) ∨ c' = { c with refCnt := n } := by
    intro c' hc'
    rw [hafter] at hc'
    obtain ⟨d, hd, rfl⟩ := mem_modifyContainer.mp hc'
    by_cases heq : d.handle = c.handle
    · rw [if_pos heq, h.tidy.unique hd hc heq]
      exact .inr rfl
    · rw [if_neg heq]
      exact .inl ⟨d, hd, heq, rfl⟩
  have htidy : Tidy e.after := by
    rw [hafter]
    exact h.tidy.modifyContainer fun _ => ⟨rfl, rfl⟩
  have hnext : e.after.nextHandle = s.nextHandle := by
    rw [hafter]
    rfl
  refine ⟨htidy, fun c' hc' => ?_, fun c' hc' => ?_, fun ct hct => ?_, ?_⟩
  · rcases hmem hc' with ⟨d, hd, -, rfl⟩ | rfl
    · exact h.disk _ hd
    · exact h.disk c hc
  · rcases hmem hc' with ⟨d, hd, hne, rfl⟩ | rfl
    · rw [(hother _ hne).1, (hother _ hne).2]
      exact h.count _ hd
    · exact ⟨hcount, hn⟩
  · have hkept : ∀ d ∈ s.registry, d.handle ≠ ct := by
      intro d hd hdct
      have hd' : (if d.handle = c.handle then { d with refCnt := n } else d) ∈ e.after.registry := by
        rw [hafter]
        exact mem_modifyContainer.mpr ⟨d, hd, rfl⟩
      refine hct _ hd' ?_
      split_ifs <;> exact hdct
    rw [(hother _ (hkept c hc).symm).1, (hother _ (hkept c hc).symm).2]
    exact h.left ct hkept
  · rw [hnext]
    exact events_append h.events hevent

theorem Inv.shared (h : Inv owner es s) {below : Below} {name : FileName}
    (hmeets : Meets s (.openContainer below name)) {c : Container} (hc : s.lookup name.bytes = some c) :
    Inv owner (es ++ [⟨s, .openContainer below name, .ok (some c.handle),
        s.modifyContainer c.handle fun c => { c with refCnt := uint32 (c.refCnt + 1) }⟩])
      (s.modifyContainer c.handle fun c => { c with refCnt := uint32 (c.refCnt + 1) }) := by
  obtain ⟨hmem, hname, hdisk, howner⟩ := h.lookup hmeets rfl hc
  have hroom : c.refCnt + 1 < 2 ^ 32 := hmeets.2 below name rfl c hmem hname
  have hsame : s.modifyContainer c.handle (fun d => { d with refCnt := uint32 (d.refCnt + 1) }) =
      s.modifyContainer c.handle fun d => { d with refCnt := c.refCnt + 1 } := by
    have hwrap : uint32 (c.refCnt + 1) = c.refCnt + 1 := Nat.mod_eq_of_lt hroom
    exact h.tidy.modifyContainer_congr hmem (by rw [hwrap])
  rw [hsame]
  refine h.recount hmem (Nat.succ_pos _) rfl ?_ ?_ ⟨?_, ?_⟩
  · rw [opens_append, closes_append, if_pos ⟨rfl, rfl⟩, if_neg (fun h => nomatch h.1), (h.count c hmem).1]
    rfl
  · intro ct hct
    rw [opens_append, closes_append, if_neg (fun h' => hct ?_), if_neg (fun h => nomatch h.1)]
    · exact ⟨rfl, rfl⟩
    · exact (Option.some.inj (Except.ok.inj h'.2)).symm
  · intro ct hct
    obtain rfl := Option.some.inj (Except.ok.inj hct)
    rw [howner]
    exact ⟨h.tidy.fresh c hmem, rfl, { c with refCnt := c.refCnt + 1 }, mem_modifyContainer.mpr ⟨c, hmem, if_pos rfl⟩,
      rfl, hdisk⟩
  · intro ct hct
    cases hct

theorem Inv.found (h : Inv owner es s) {name : FileName} (hmeets : Meets s (.getHandle name)) :
    Inv owner (es ++ [⟨s, .getHandle name, .ok ((s.lookup name.bytes).map Container.handle), s⟩]) s := by
  obtain ⟨hcount, hleft⟩ :=
    h.counts_append (e := ⟨s, .getHandle name, .ok ((s.lookup name.bytes).map Container.handle), s⟩)
      (fun _ h => nomatch h.1) fun _ h => nomatch h.1
  refine ⟨h.tidy, h.disk, hcount, hleft, events_append h.events ⟨fun ct hct => ?_, fun ct hct => ?_⟩⟩
  · obtain ⟨c, hc, rfl⟩ := Option.map_eq_some_iff.mp (Except.ok.inj hct)
    obtain ⟨hmem, -, hdisk, howner⟩ := h.lookup hmeets rfl hc
    rw [howner]
    exact ⟨h.tidy.fresh c hmem, rfl, c, hmem, rfl, hdisk⟩
  · cases hct

theorem Inv.closed (h : Inv owner es s) {c : Container} (hc : c ∈ s.registry) :
    Inv owner (es ++ [⟨s, .closeContainer c.handle, .ok none, s.release c⟩]) (s.release c) := by
  obtain ⟨hcount, hpos⟩ := h.count c hc
  have hcloses : closes c.handle (es ++ [⟨s, .closeContainer c.handle, .ok none, s.release c⟩]) =
      closes c.handle es + 1 := by
    rw [closes_append, if_pos ⟨rfl, rfl⟩]
  have hopens : ∀ ct, opens ct (es ++ [⟨s, .closeContainer c.handle, .ok none, s.release c⟩]) = opens ct es := by
    intro ct
    rw [opens_append, if_neg fun h => nomatch h.1]
    rfl
  have hother : ∀ ct, ct ≠ c.handle →
      opens ct (es ++ [⟨s, .closeContainer c.handle, .ok none, s.release c⟩]) = opens ct es ∧
      closes ct (es ++ [⟨s, .closeContainer c.handle, .ok none, s.release c⟩]) = closes ct es := by
    intro ct hct
    rw [closes_append, if_neg fun h => hct (Option.some.inj h.1).symm]
    exact ⟨hopens ct, rfl⟩
  have hevent : EventOk owner s.nextHandle ⟨s, .closeContainer c.handle, .ok none, s.release c⟩ :=
    ⟨fun ct hct => (nomatch hct), fun ct hct => (nomatch hct)⟩
  by_cases hlast : c.refCnt - 1 = 0
  · have hafter : s.release c = s.closeContainer c.handle := by
      unfold System.release
      rw [if_neg hpos.ne', if_neg (not_not.mpr hlast)]
    have hmem : ∀ {d : Container}, d ∈ (s.release c).registry ↔ d ∈ s.registry ∧ d.handle ≠ c.handle := by
      intro d
      rw [hafter]
      unfold System.closeContainer
      rw [List.mem_filter, decide_eq_true_iff]
    refine ⟨⟨?_, ?_, ?_⟩, ?_, ?_, ?_, ?_⟩
    · intro d hd
      rw [hafter]
      exact h.tidy.fresh d (hmem.mp hd).1
    · rw [hafter]
      exact h.tidy.nodup.sublist (List.filter_sublist.map _)
    · exact fun d hd => h.tidy.nonempty d (hmem.mp hd).1
    · exact fun d hd => h.disk d (hmem.mp hd).1
    · intro d hd
      rw [(hother _ (hmem.mp hd).2).1, (hother _ (hmem.mp hd).2).2]
      exact h.count d (hmem.mp hd).1
    · intro ct hct
      by_cases heq : ct = c.handle
      · rw [heq, hopens, hcloses]
        omega
      · rw [(hother ct heq).1, (hother ct heq).2]
        exact h.left ct fun d hd hdct => hct d (hmem.mpr ⟨hd, hdct ▸ heq⟩) hdct
    · rw [hafter] at hevent ⊢
      exact events_append h.events hevent
  · have hafter : s.release c = s.modifyContainer c.handle fun d => { d with refCnt := c.refCnt - 1 } := by
      unfold System.release
      rw [if_neg hpos.ne', if_pos hlast]
      exact h.tidy.modifyContainer_congr hc rfl
    refine h.recount hc (Nat.pos_of_ne_zero hlast) hafter ?_ hother hevent
    rw [hopens, hcloses]
    omega

/-- What one call preserves. -/
theorem Inv.step (h : Inv owner es s) (hmeets : Meets s call) {r : Except CallError (Option ℕ)}
    (heffect : Effect s call r s') : ∃ owner', Inv owner' (es ++ [⟨s, call, r, s'⟩]) s' := by
  cases heffect with
  | failed hs hopened => exact ⟨_, h.failed hmeets hs hopened⟩
  | made hname hopens => exact ⟨_, h.made hname hopens⟩
  | shared hc => exact ⟨_, h.shared hmeets hc⟩
  | found => exact ⟨_, h.found hmeets⟩
  | closed hc => exact ⟨_, h.closed hc⟩

/-- What a run preserves, if every call of it meets the condition. -/
theorem Run.inv (h : Run es s) (hmeets : ∀ e ∈ es, Meets e.before e.call) : ∃ owner, Inv owner es s := by
  induction h with
  | start =>
    refine ⟨fun _ => [], ⟨?_, List.nodup_nil, ?_⟩, ?_, ?_, fun _ _ => rfl, ?_⟩
    all_goals exact fun _ h => absurd h List.not_mem_nil
  | step e _ hhappens ih =>
    obtain ⟨owner, hinv⟩ := ih fun e' he' => hmeets e' (List.mem_append_left _ he')
    have heffect : Effect e.before e.call e.result e.after := by
      have hcall := (perform_effect hinv.tidy e.call).and hhappens
      rcases ends_iff.mp hcall with ⟨r, s', -, hr, hresult, hafter⟩ | ⟨err, s', -, hr, hresult, hafter⟩
      · rw [hresult, hafter]
        exact hr
      · rw [hresult, hafter]
        exact hr
    exact hinv.step (hmeets e (List.mem_append_right _ List.mem_cons_self)) heffect

/-- In a run whose names are told apart by the fold, containers are identified by their file name. -/
theorem containers_identified (h : Run es s) (hmeets : ∀ e ∈ es, Meets e.before e.call) : Identified es s := by
  obtain ⟨owner, hinv⟩ := h.inv hmeets
  refine ⟨fun e he ct hct => ?_, fun e he e' he' ct hct hct' => ?_, fun e he ct hct => ?_, hinv.count, hinv.left⟩
  · obtain ⟨-, hname, hfile⟩ := (hinv.events e he).found ct hct
    exact ⟨_, hname, hfile⟩
  · rw [((hinv.events e he).found ct hct).2.1, ((hinv.events e' he').found ct hct').2.1]
  · exact (hinv.events e he).refused ct hct

/-- Layers in which no call fails. -/
def allFine : Below := ⟨true, fun _ => none⟩

/-- The names `A` and `a`. -/
def upperA : FileName := ⟨⟨[65], by decide⟩, by decide, by decide⟩

def lowerA : FileName := ⟨⟨[97], by decide⟩, by decide, by decide⟩

/-- The registry with `A` open `n` times. -/
def openA (n : ℕ) : System := ⟨[⟨0, [65], n, some [65]⟩], 1⟩

/-- `A` is created, and opened under the name. -/
def createThenOpen (name : FileName) : List Event :=
  [⟨⟨[], 0⟩, .createContainer allFine upperA 80, .ok (some 0), openA 1⟩,
    ⟨openA 1, .openContainer allFine name, .ok (some 0), openA 2⟩]

theorem createThenOpen_run {name : FileName}
    (hopen : Event.Happens ⟨openA 1, .openContainer allFine name, .ok (some 0), openA 2⟩) :
    Run (createThenOpen name) (openA 2) :=
  have hcreate : Run [⟨⟨[], 0⟩, .createContainer allFine upperA 80, .ok (some 0), openA 1⟩] (openA 1) :=
    .step ⟨⟨[], 0⟩, .createContainer allFine upperA 80, .ok (some 0), openA 1⟩ .start ⟨rfl, rfl⟩
  .step ⟨openA 1, .openContainer allFine name, .ok (some 0), openA 2⟩ hcreate hopen

theorem containers_identified_twice : Identified (createThenOpen upperA) (openA 2) := by
  refine containers_identified (createThenOpen_run ⟨rfl, rfl⟩) fun e he => ?_
  rcases List.mem_cons.mp he with rfl | he
  · exact ⟨fun _ _ c hc => absurd hc List.not_mem_nil, fun _ _ _ c hc => absurd hc List.not_mem_nil⟩
  · obtain rfl := List.mem_singleton.mp he
    refine ⟨fun name hname c hc _ => ?_, fun _ _ _ c hc _ => ?_⟩
    · obtain rfl := List.mem_singleton.mp hc
      exact (Option.some.inj hname).symm
    · obtain rfl := List.mem_singleton.mp hc
      decide

/-- The file `a` is there, but to open it gives the container of the file `A`, and to create it is refused because
`A` is open. -/
theorem containers_mixed_up : Run (createThenOpen lowerA) (openA 2) ∧
    ¬ Identified (createThenOpen lowerA) (openA 2) ∧
    Ends (perform (.createContainer allFine lowerA 80)) (openA 2) (fun _ _ => False)
      fun e s => e = .isOpened 0 ∧ s = openA 2 := by
  refine ⟨createThenOpen_run ⟨rfl, rfl⟩, fun h => ?_, rfl, rfl⟩
  have hsame := h.same _ List.mem_cons_self _ (List.mem_cons_of_mem _ List.mem_cons_self) 0 rfl rfl
  exact absurd hsame (by decide)

end Inv

end IndexFs.ContainerManager
