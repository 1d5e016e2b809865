import IndexFs.Object.Agreement
import IndexFs.Object.Reads
import IndexFs.Avl.Runs

/-!
# The trees of cached blocks

In `Object.Caches` the AVL tree of the cached blocks of an object or of a container is
the list of its members. Here it is the tree that `public/avl.c` builds in memory, sorted
by the numbers of the blocks. The numbers are in the caches, not in the nodes: they
change while a cache is in no tree (`change_obj_cache_vbn`).

Results:

* `CacheTree.find`, `CacheTree.add`, `CacheTree.remove`: one call on the list and on the tree.
* `cacheRun_simulates`: the tree answers as the list does over every run of calls, with
  changes of the caches in between.
-/

namespace IndexFs.Object

open Avl (AvlTree AvlM HoldsSet AvlCall setStep call_refines aside)

/-! ## Calls -/

/-- The key of a member: `cache_node->vbn`. -/
def vbnOf (heap : CachePtr → Option BlockCache) (p : CachePtr) : ℕ := (heap p).elim 0 BlockCache.vbn

/-- A call on a tree of caches, or a change of the caches between two calls. -/
inductive CacheCall
  | find (vbn : ℕ)
  | add (p : CachePtr)
  | remove (p : CachePtr)
  | change (heap : CachePtr → Option BlockCache)

/-- A call on the list of the members. -/
def CacheCall.onList (l : List CachePtr) : CacheCall → ObjectM (Option CachePtr × List CachePtr)
  | .find vbn => do return (← fromExcept (avlFind (← get).heap vbn l), l)
  | .add p => do return (none, ← avlAdd l p)
  | .remove p => do return (none, ← avlRemove l p)
  | .change heap => do
    modify ({ · with heap })
    return (none, l)

/-- A call on the tree in memory. -/
def CacheCall.onTree (heap : CachePtr → Option BlockCache) (fuel : ℕ) (tmp : CachePtr) :
    CacheCall → AvlM CachePtr (Option CachePtr)
  | .find vbn => (AvlCall.find vbn).run (vbnOf heap) fuel tmp
  | .add p => (AvlCall.add p).run (vbnOf heap) fuel tmp
  | .remove p => (AvlCall.remove p).run (vbnOf heap) fuel tmp
  | .change _ => return none

/-- The caches after a call. -/
def CacheCall.heapAfter (heap : CachePtr → Option BlockCache) : CacheCall → CachePtr → Option BlockCache
  | .change heap' => heap'
  | _ => heap

/-- A run on the list: the answers and the members after it. -/
def listRun : List CacheCall → List CachePtr → ObjectM (List (Option CachePtr) × List CachePtr)
  | [], l => return ([], l)
  | c :: cs, l => do
    let r ← c.onList l
    let rest ← listRun cs r.2
    return (r.1 :: rest.1, rest.2)

/-- A run on the tree in memory. -/
def treeRun (fuel : ℕ) (tmp : CachePtr) :
    List CacheCall → (CachePtr → Option BlockCache) → AvlM CachePtr (List (Option CachePtr))
  | [], _ => return []
  | c :: cs, heap => do
    let a ← c.onTree heap fuel tmp
    let as ← treeRun fuel tmp cs (c.heapAfter heap)
    return a :: as

/-- Members keep their numbers, and the local variable of `avl_remove` is no cache. -/
def CacheCall.Legal (tmp : CachePtr) (heap : CachePtr → Option BlockCache) (l : List CachePtr) : CacheCall → Prop
  | .add p => p ≠ tmp
  | .change heap' => ∀ p ∈ l, ∃ c c', heap p = some c ∧ heap' p = some c' ∧ c'.vbn = c.vbn
  | _ => True

/-- The calls of a run are legal when they are made. -/
def LegalCalls (tmp : CachePtr) : List CacheCall → Container → List CachePtr → Prop
  | [], _, _ => True
  | c :: cs, ct, l =>
    c.Legal tmp ct.heap l ∧ ∀ r ct', c.onList l ct = .ok r ct' → LegalCalls tmp cs ct' r.2

/-- The members of the list, which are caches, are those of a tree in memory. -/
structure CacheTree (heap : CachePtr → Option BlockCache) (tmp : CachePtr) (t : AvlTree CachePtr) (l : List CachePtr) :
    Prop where
  holds : ∃ m, HoldsSet (vbnOf heap) tmp t m ∧ m.Perm l
  live : ∀ p ∈ l, ∃ c, heap p = some c

/-! ## One call -/

variable {heap : CachePtr → Option BlockCache} {tmp p : CachePtr} {t : AvlTree CachePtr} {l m : List CachePtr}
  {vbn fuel : ℕ} {ct : Container} {c : BlockCache}

theorem vbnOf_some (h : heap p = some c) : vbnOf heap p = c.vbn := by
  unfold vbnOf
  rw [h]
  rfl

/-- A search in the list finds what one in the sorted set does. -/
theorem avlFind_sorted (hm : HoldsSet (vbnOf heap) tmp t m) (hperm : m.Perm l) (hlive : ∀ p ∈ l, ∃ c, heap p = some c)
    (vbn : ℕ) : avlFind heap vbn l = .ok (m.find? (vbnOf heap · = vbn)) := by
  rcases avlFind_live hlive vbn with hnone | ⟨p, hp⟩
  · have hmiss : m.find? (vbnOf heap · = vbn) = none := by
      rw [List.find?_eq_none]
      intro q hq
      obtain ⟨c, hc, hne⟩ := avlFind_none hnone q (hperm.mem_iff.mp hq)
      rw [vbnOf_some hc]
      simpa using hne
    rw [hnone, hmiss]
  · obtain ⟨hmem, c, hc, rfl⟩ := avlFind_some hp
    rw [hp, ← vbnOf_some hc, Avl.find_of_mem hm.sorted (hperm.mem_iff.mpr hmem)]

/-- The elements beside a key that no element has are all of them. -/
theorem aside_perm {ι κ : Type} [LinearOrder κ] {key : ι → κ} {k : κ} {m : List ι} (h : ∀ q ∈ m, key q ≠ k) :
    (aside key k false m ++ aside key k true m).Perm m := by
  have hright : aside key k true m = m.filter fun q => !decide (key q < k) := by
    refine List.filter_congr fun q hq => ?_
    rw [← decide_not, decide_eq_decide, not_lt]
    exact ⟨le_of_lt, fun hle => lt_of_le_of_ne hle (h q hq).symm⟩
  rw [hright]
  exact List.filter_append_perm _ m

/-- On the list and on the tree a call comes to the same. -/
theorem call_simulates {call : CacheCall} (h : CacheTree ct.heap tmp t l) (hc : call.Legal tmp ct.heap l)
    (hfuel : l.length + 1 < Nat.fib (fuel + 2)) :
    Ends (call.onList l) ct
      (fun r ct' => ct'.heap = call.heapAfter ct.heap ∧ r.2.length ≤ l.length + 1 ∧
        Ends (call.onTree ct.heap fuel tmp) t (fun a T => a = r.1 ∧ CacheTree ct'.heap tmp T r.2) (fun _ _ => False))
      (fun e _ => e = .memory ∨
        e = .assertion ∧ Ends (call.onTree ct.heap fuel tmp) t (fun _ _ => False) (fun e _ => e = .assertion)) := by
  obtain ⟨⟨m, hm, hperm⟩, hlive⟩ := h
  rw [← hperm.length_eq] at hfuel
  cases call with
  | find vbn =>
    have hfound := avlFind_sorted hm hperm hlive vbn
    unfold CacheCall.onList
    rw [ends_bind, ends_get, hfound, ends_bind, ends_fromExcept_ok]
    refine ⟨rfl, Nat.le_succ _, ?_⟩
    refine (call_refines (c := .find vbn) hm trivial hfuel).mono (fun a T hpost => ?_) fun e T hpost => ?_
    · obtain ⟨m', hstep, hT, -⟩ := hpost
      cases hstep
      exact ⟨rfl, ⟨m, hT, hperm⟩, hlive⟩
    · cases hpost.2
  | add p =>
    have hadd := call_refines (c := .add p) hm hc hfuel
    unfold CacheCall.onList avlAdd getCache
    cases hp : ct.heap p with
    | none =>
      rw [ends_bind, ends_bind, ends_bind, ends_get, hp]
      exact .inl rfl
    | some c =>
      rw [ends_bind, ends_bind, ends_bind, ends_get, hp]
      dsimp only
      rw [ends_pure, ends_bind, ends_get, ends_bind, avlFind_sorted hm hperm hlive, ends_fromExcept_ok, ← vbnOf_some hp]
      cases hfind : m.find? (vbnOf ct.heap · = vbnOf ct.heap p) with
      | some q =>
        refine .inr ⟨rfl, hadd.mono (fun a T hpost => ?_) fun e T hpost => hpost.1⟩
        obtain ⟨m', hstep, -⟩ := hpost
        have hq := List.find?_some hfind
        rw [show setStep (vbnOf ct.heap) m (.add p) = none from
          if_pos ⟨q, List.mem_of_find?_eq_some hfind, by simpa using hq⟩] at hstep
        cases hstep
      | none =>
        have hnew : ∀ q ∈ m, vbnOf ct.heap q ≠ vbnOf ct.heap p := by
          intro q hq
          simpa using List.find?_eq_none.mp hfind q hq
        have hne : ¬∃ q ∈ m, vbnOf ct.heap q = vbnOf ct.heap p := by
          rintro ⟨q, hq, heq⟩
          exact hnew q hq heq
        refine ⟨rfl, by simp, hadd.mono (fun a T hpost => ?_) fun e T hpost => ?_⟩
        · obtain ⟨m', hstep, hT, -⟩ := hpost
          rw [show setStep (vbnOf ct.heap) m (.add p) = _ from if_neg hne] at hstep
          cases hstep
          refine ⟨rfl, ⟨_, hT, ?_⟩, fun q hq => ?_⟩
          · refine List.perm_middle.trans (((aside_perm hnew).trans hperm).cons p |>.trans ?_)
            exact (List.perm_append_singleton p l).symm
          · rcases List.mem_append.mp hq with hq | hq
            · exact hlive q hq
            · exact ⟨c, List.mem_singleton.mp hq ▸ hp⟩
        · rw [show setStep (vbnOf ct.heap) m (.add p) = _ from if_neg hne] at hpost
          cases hpost.2
  | remove p =>
    dsimp only [CacheCall.onList, avlRemove]
    by_cases hp : p ∈ l
    · rw [if_pos hp]
      refine ⟨rfl, List.length_erase_le.trans (Nat.le_succ _), ?_⟩
      refine (call_refines (c := .remove p) hm (hperm.mem_iff.mpr hp) hfuel).mono (fun a T hpost => ?_) fun e T hpost => ?_
      · obtain ⟨m', hstep, hT, -⟩ := hpost
        cases hstep
        exact ⟨rfl, ⟨_, hT, hperm.erase p⟩, fun q hq => hlive q (List.mem_of_mem_erase hq)⟩
      · cases hpost.2
    · rw [if_neg hp]
      exact .inl rfl
  | change heap =>
    refine ⟨rfl, Nat.le_succ _, rfl, ⟨m, ⟨hm.holds, ?_, hm.fresh, hm.numnodes⟩, hperm⟩, fun p hp => ?_⟩
    · refine hm.sorted.imp_of_mem fun {p q} hp hq hpq => ?_
      obtain ⟨c, c', hold, hnew, heq⟩ := hc p (hperm.mem_iff.mp hp)
      obtain ⟨e, e', hold', hnew', heq'⟩ := hc q (hperm.mem_iff.mp hq)
      show vbnOf heap p < vbnOf heap q
      rw [vbnOf_some hold, vbnOf_some hold', ← heq, ← heq'] at hpq
      rwa [vbnOf_some hnew, vbnOf_some hnew']
    · obtain ⟨-, c', -, hnew, -⟩ := hc p hp
      exact ⟨c', hnew⟩

/-! ## Runs -/

/-- The tree in memory answers as the list does and has the same members after every run. Where the list fails an
`ASSERT` so does the tree. Nothing is said of a run that adds what is no cache or removes what is no member. -/
theorem cacheRun_simulates {cs : List CacheCall} (h : CacheTree ct.heap tmp t l) (hlegal : LegalCalls tmp cs ct l)
    (hfuel : l.length + cs.length + 1 < Nat.fib (fuel + 2)) :
    Ends (listRun cs l) ct
      (fun r ct' =>
        Ends (treeRun fuel tmp cs ct.heap) t (fun as T => as = r.1 ∧ CacheTree ct'.heap tmp T r.2) (fun _ _ => False))
      (fun e _ => e = .memory ∨
        e = .assertion ∧ Ends (treeRun fuel tmp cs ct.heap) t (fun _ _ => False) (fun e _ => e = .assertion)) := by
  induction cs generalizing ct t l with
  | nil => exact ⟨rfl, h⟩
  | cons c cs ih =>
    obtain ⟨hc, hcs⟩ := hlegal
    rw [List.length_cons] at hfuel
    have hroom : l.length + 1 < Nat.fib (fuel + 2) := by omega
    have hcall := call_simulates h hc hroom
    unfold listRun treeRun
    cases hrun : c.onList l ct with
    | error e ct' =>
      rw [ends_of_error hrun] at hcall
      rw [ends_bind, ends_of_error hrun, ends_bind]
      refine hcall.imp_right fun hpost => ⟨hpost.1, hpost.2.mono (fun _ _ => False.elim) fun _ _ => id⟩
    | ok r ct' =>
      rw [ends_of_ok hrun] at hcall
      obtain ⟨hheap, hlength, htree⟩ := hcall
      rw [← hheap, ends_bind, ends_of_ok hrun]
      obtain ⟨a, T, hT, rfl, hmembers⟩ | ⟨_, _, _, hfalse⟩ := ends_iff.mp htree
      · refine (ih hmembers (hcs r ct' hrun) (by omega)).seq' (fun rest ct'' hpost => ?_) fun e ct'' hpost => ?_
        · rw [ends_pure, ends_bind, ends_of_ok hT]
          refine hpost.seq fun as T' hpost => ?_
          obtain ⟨rfl, hmembers'⟩ := hpost
          exact ⟨rfl, hmembers'⟩
        · refine hpost.imp_right fun hpost => ⟨hpost.1, ?_⟩
          rw [ends_bind, ends_of_ok hT, ends_bind]
          exact hpost.2.mono (fun _ _ => False.elim) fun _ _ => id
      · exact hfalse.elim

/-- Two caches, the first of them for the block `vbn`. -/
def twoCaches (vbn : ℕ) (p : CachePtr) : Option BlockCache :=
  if p = 1 then some ⟨vbn, .empty, false⟩ else if p = 2 then some ⟨20, .empty, false⟩ else none

/-- The first cache gets another number, as in `change_obj_cache_vbn`. -/
def renumberRun : List CacheCall := [.add 1, .add 2, .remove 1, .change (twoCaches 30), .add 1, .find 30]

theorem renumberRun_legal : LegalCalls 3 renumberRun { newContainer with heap := twoCaches 10 } [] := by
  have hone : (1 : CachePtr) ≠ 3 := by decide
  have htwo : (2 : CachePtr) ≠ 3 := by decide
  refine ⟨hone, fun r ct h => ?_⟩
  cases h
  refine ⟨htwo, fun r ct h => ?_⟩
  cases h
  refine ⟨trivial, fun r ct h => ?_⟩
  cases h
  refine ⟨fun p hp => ?_, fun r ct h => ?_⟩
  · have hp : p = 2 := by simpa using hp
    rw [hp]
    exact ⟨_, _, rfl, rfl, rfl⟩
  cases h
  refine ⟨hone, fun r ct h => ?_⟩
  cases h
  exact ⟨trivial, fun _ _ _ => trivial⟩

theorem cacheRun_simulates_renumber :
    Ends (listRun renumberRun []) { newContainer with heap := twoCaches 10 }
      (fun r ct =>
        Ends (treeRun 4 3 renumberRun (twoCaches 10)) (Avl.avlCreate fun _ => ⟨fun _ => none, none, false, 0⟩)
          (fun as T => as = r.1 ∧ CacheTree ct.heap 3 T r.2) (fun _ _ => False))
      (fun e _ => e = .memory ∨ e = .assertion ∧
        Ends (treeRun 4 3 renumberRun (twoCaches 10)) (Avl.avlCreate fun _ => ⟨fun _ => none, none, false, 0⟩)
          (fun _ _ => False) (fun e _ => e = .assertion)) :=
  cacheRun_simulates ⟨⟨[], Avl.avlCreate_holdsSet, .nil⟩, fun _ hp => absurd hp List.not_mem_nil⟩ renumberRun_legal (by decide)

end IndexFs.Object
