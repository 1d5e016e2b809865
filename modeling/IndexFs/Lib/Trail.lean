import IndexFs.Lib.Multiway

/-!
# The way of a traversal through a tree

`trail rev n` is what a traversal of `n` meets in order: it enters blocks and passes
entries, from left to right or, with `rev`, from right to left. `reached ok T` are the
entries on the way `T` before the first block that cannot be entered.

* `entries_trail`: a trail passes the entries of the tree in order.
* `trail_fill`: the trail of a filled path around the trail of the filling.
* `after_fill`: what is left of the trail behind an entry of a block.
-/

namespace IndexFs.Multiway

variable {ι α : Type} {h H : ℕ}

/-- A traversal enters a block of the height `h + 1` or passes an entry. -/
inductive Event (ι α : Type)
  | enter (h : ℕ) (i : ι)
  | entry (a : α)

namespace Event

def isEnter : Event ι α → Bool
  | enter _ _ => true
  | entry _ => false

/-- The event is not a block that `ok` refuses. -/
def within (ok : ℕ → ι → Bool) : Event ι α → Bool
  | enter h i => ok h i
  | entry _ => true

/-- The entries that are passed. -/
def entries : List (Event ι α) → List α
  | [] => []
  | enter _ _ :: T => entries T
  | entry a :: T => a :: entries T

/-- The entries before the first block that `ok` refuses. -/
def reached (ok : ℕ → ι → Bool) (T : List (Event ι α)) : List α := entries (T.takeWhile (within ok))

/-- What is left behind `k` entries. -/
def after : ℕ → List (Event ι α) → List (Event ι α)
  | 0, T => T
  | _ + 1, [] => []
  | k + 1, enter _ _ :: T => after (k + 1) T
  | k + 1, entry _ :: T => after k T

variable {ok : ℕ → ι → Bool} {T E R : List (Event ι α)}

@[simp] theorem entries_append (E R : List (Event ι α)) : entries (E ++ R) = entries E ++ entries R := by
  induction E with
  | nil => rfl
  | cons e E ih => cases e <;> simp [entries, ih]

theorem entries_flatMap {β : Type} (f : β → List (Event ι α)) (l : List β) :
    entries (l.flatMap f) = l.flatMap fun x => entries (f x) := by
  induction l with
  | nil => rfl
  | cons x l ih => simp [ih]

theorem entries_of_enters (hE : ∀ e ∈ E, e.isEnter = true) : entries E = [] := by
  induction E with
  | nil => rfl
  | cons e E ih =>
    rw [List.forall_mem_cons] at hE
    cases e with
    | enter h i => exact ih hE.2
    | entry a => exact absurd hE.1 (by simp [isEnter])

/-- Behind the entry that follows `k` entries. -/
theorem after_append {k : ℕ} {a : α} (hk : (entries E).length = k) :
    after (k + 1) (E ++ entry a :: R) = R := by
  induction E generalizing k with
  | nil =>
    obtain rfl : k = 0 := hk.symm
    simp [after]
  | cons e E ih =>
    cases e with
    | enter h i => simpa [after] using ih hk
    | entry b =>
      obtain ⟨k, rfl⟩ : ∃ j, k = j + 1 := ⟨k - 1, by simp [entries] at hk; omega⟩
      simpa [after] using ih (by simpa [entries] using hk)

theorem entries_after (k : ℕ) (T : List (Event ι α)) : entries (after k T) = (entries T).drop k := by
  induction T generalizing k with
  | nil => cases k <;> simp [after, entries]
  | cons e T ih =>
    cases k with
    | zero => simp [after]
    | succ k => cases e <;> simp [after, entries, ih]

theorem after_after (j k : ℕ) (T : List (Event ι α)) : after j (after k T) = after (k + j) T := by
  induction T generalizing k with
  | nil => cases k <;> cases j <;> simp [after]
  | cons e T ih =>
    cases k with
    | zero => simp [after]
    | succ k => cases e <;> simp [after, ih, Nat.succ_add]

/-- The blocks before the next entry, and what comes then. -/
theorem exists_enters (T : List (Event ι α)) :
    ∃ E R, T = E ++ R ∧ E = T.takeWhile isEnter ∧ (∀ e ∈ E, e.isEnter = true) ∧
      (R = [] ∨ ∃ a T', R = entry a :: T') := by
  refine ⟨T.takeWhile isEnter, T.dropWhile isEnter, (List.takeWhile_append_dropWhile).symm, rfl,
    fun e he => List.all_eq_true.mp List.all_takeWhile e he, ?_⟩
  induction T with
  | nil => exact .inl rfl
  | cons e T ih =>
    cases e with
    | enter h i => exact ih
    | entry a => exact .inr ⟨a, T, rfl⟩

theorem reached_append (hE : ∀ e ∈ E, e.within ok = true) : reached ok (E ++ R) = entries E ++ reached ok R := by
  unfold reached
  rw [List.takeWhile_append_of_pos hE, entries_append]

/-- A block that is refused before the first entry. -/
theorem reached_refused (h : ∃ e ∈ T.takeWhile isEnter, e.within ok = false) : reached ok T = [] := by
  induction T with
  | nil => rfl
  | cons e T ih =>
    cases e with
    | entry a => simp [isEnter] at h
    | enter k i =>
      cases hok : ok k i with
      | false => simp [reached, within, hok, entries]
      | true =>
        obtain ⟨e, he, hbad⟩ := h
        rw [List.takeWhile_cons_of_pos rfl] at he
        have hrest := ih ⟨e, (List.mem_cons.mp he).resolve_left fun h => ?_, hbad⟩
        · simpa [reached, within, hok, entries] using hrest
        · rw [h] at hbad
          simp [within, hok] at hbad

/-- The next entry is passed if no block before it is refused. -/
theorem reached_next {a : α} {l : List α} (h : ∀ e ∈ T.takeWhile isEnter, e.within ok = true)
    (hT : entries T = a :: l) : reached ok T = a :: reached ok (after 1 T) := by
  obtain ⟨E, R, hsplit, hE, henter, hR⟩ := exists_enters T
  have hnone := entries_of_enters henter
  rw [← hE] at h
  obtain rfl | ⟨b, T', rfl⟩ := hR
  · simp [hsplit, hnone] at hT
  · rw [hsplit, entries_append, hnone] at hT
    obtain ⟨rfl, -⟩ : b = a ∧ entries T' = l := by simpa [entries] using hT
    rw [hsplit, reached_append h, hnone, after_append (by rw [hnone]; rfl)]
    rfl

theorem reached_prefix (ok : ℕ → ι → Bool) (T : List (Event ι α)) : reached ok T <+: entries T := by
  have hsplit := congrArg entries (List.takeWhile_append_dropWhile (p := within ok) (l := T))
  rw [entries_append] at hsplit
  exact ⟨_, hsplit⟩

theorem reached_end (hT : entries T = []) : reached ok T = [] :=
  List.prefix_nil.mp (hT ▸ reached_prefix ok T)

/-- Nothing is refused. -/
theorem reached_all (hT : ∀ e ∈ T, e.within ok = true) : reached ok T = entries T := by
  have h := reached_append (R := []) hT
  simpa [reached, entries] using h

end Event

open Event

/-! ## Trails -/

/-- The way through a tree, from left to right or from right to left. -/
def Node.trail (rev : Bool) : {h : ℕ} → Node ι α h → List (Event ι α)
  | 0, _ => []
  | h + 1, n =>
    .enter h n.root.label ::
      if rev then (n.root.rest.reverse.flatMap fun x => trail rev x.2 ++ [.entry x.1]) ++ trail rev n.root.first
      else trail rev n.root.first ++ n.root.rest.flatMap fun x => .entry x.1 :: trail rev x.2

/-- The way through a block to a child. -/
def trailTo (rev : Bool) (before : List (Node ι α h × α)) (after : List (α × Node ι α h)) : List (Event ι α) :=
  if rev then after.reverse.flatMap fun x => x.2.trail rev ++ [.entry x.1]
  else before.flatMap fun x => x.1.trail rev ++ [.entry x.2]

/-- The way through a block from a child on. -/
def trailFrom (rev : Bool) (before : List (Node ι α h × α)) (after : List (α × Node ι α h)) : List (Event ι α) :=
  if rev then before.reverse.flatMap fun x => .entry x.2 :: x.1.trail rev
  else after.flatMap fun x => .entry x.1 :: x.2.trail rev

/-- The way to the hole. -/
def Path.trailTo (rev : Bool) : {h : ℕ} → Path ι α H h → List (Event ι α)
  | _, top => []
  | h, down i before after up => up.trailTo rev ++ .enter h i :: Multiway.trailTo rev before after

/-- The way from the hole on. -/
def Path.trailFrom (rev : Bool) : {h : ℕ} → Path ι α H h → List (Event ι α)
  | _, top => []
  | _, down _ before after up => Multiway.trailFrom rev before after ++ up.trailFrom rev

/-- Backwards, what `chain` puts behind the children is in front. -/
theorem reverse_flatMap_chain {β γ : Type} (f : β → List γ) (g : α → List γ) (before : List (β × α)) (c : β)
    (after : List (α × β)) :
    (chain before c after).2.reverse.flatMap (fun x => f x.2 ++ g x.1) ++ f (chain before c after).1 =
      after.reverse.flatMap (fun x => f x.2 ++ g x.1) ++ f c ++
        before.reverse.flatMap fun x => g x.2 ++ f x.1 := by
  induction before with
  | nil => simp
  | cons x before ih =>
    simp only [chain, List.reverse_cons, List.flatMap_append, List.flatMap_cons, List.flatMap_nil,
      List.append_nil]
    rw [← List.append_assoc, ih]
    simp only [List.append_assoc]

theorem trail_plug (rev : Bool) (i : ι) (before : List (Node ι α h × α)) (c : Node ι α h)
    (after : List (α × Node ι α h)) : (Node.plug i before c after).trail rev =
      .enter h i :: (trailTo rev before after ++ c.trail rev ++ trailFrom rev before after) := by
  unfold Node.plug trailTo trailFrom
  cases rev with
  | false => exact congrArg _ (flatMap_chain (Node.trail false) (fun a => [Event.entry a]) before c after)
  | true => exact congrArg _ (reverse_flatMap_chain (Node.trail true) (fun a => [Event.entry a]) before c after)

theorem trail_fill (rev : Bool) (p : Path ι α H h) (c : Node ι α h) :
    (p.fill c).trail rev = p.trailTo rev ++ c.trail rev ++ p.trailFrom rev := by
  induction p with
  | top => simp [Path.fill, Path.trailTo, Path.trailFrom]
  | down i before after up ih => simp [Path.fill, Path.trailTo, Path.trailFrom, ih, trail_plug]

/-- Elements in the order of the traversal. -/
def ordered (rev : Bool) (l : List α) : List α := if rev then l.reverse else l

theorem entries_trail (rev : Bool) (n : Node ι α h) : entries (n.trail rev) = ordered rev n.elems := by
  induction h with
  | zero => cases rev <;> rfl
  | succ h ih =>
    obtain ⟨i, c, rest, rfl⟩ := n.exists_block
    cases rev with
    | false =>
      change entries (c.trail false ++ rest.flatMap fun x => .entry x.1 :: x.2.trail false) = _
      rw [entries_append, entries_flatMap, ih]
      simp only [entries, ih]
      rfl
    | true =>
      change entries ((rest.reverse.flatMap fun x => x.2.trail true ++ [.entry x.1]) ++ c.trail true) = _
      rw [entries_append, entries_flatMap, ih]
      simp only [entries_append, entries, ih]
      simp [ordered, Node.elems_block, Node.elemsAfter, List.reverse_flatMap, Function.comp_def]

/-- The entries beside a path that are passed before its hole. -/
def Path.passed (rev : Bool) (p : Path ι α H h) : List α := if rev then p.right.reverse else p.left

theorem entries_trailTo (rev : Bool) (p : Path ι α H h) : entries (p.trailTo rev) = p.passed rev := by
  induction p with
  | top => cases rev <;> rfl
  | down i before after up ih =>
    unfold Path.trailTo trailTo
    rw [entries_append, ih]
    unfold Path.passed
    cases rev with
    | false =>
      simp only [Bool.false_eq_true, if_false, entries, entries_flatMap, entries_append, entries_trail]
      rfl
    | true =>
      simp only [if_true, entries, entries_flatMap, entries_append, entries_trail]
      simp [ordered, Path.right, Node.elemsAfter, List.reverse_flatMap, Function.comp_def]

/-- What is left of the trail of a filled path behind the next entry. -/
theorem after_fill {v : Bool} {p : Path ι α H h} {c : Node ι α h} {a : α} {R : List (Event ι α)}
    (hfrom : p.trailFrom v = .entry a :: R) :
    after ((p.passed v ++ ordered v c.elems).length + 1) ((p.fill c).trail v) = R := by
  rw [trail_fill, hfrom, after_append]
  rw [entries_append, entries_trailTo, entries_trail]

/-- A way through the rest of a tree is at its end or passes an entry next. -/
def Led (T : List (Event ι α)) : Prop := T = [] ∨ ∃ a R, T = .entry a :: R

theorem led_trailFrom (rev : Bool) (before : List (Node ι α h × α)) (after : List (α × Node ι α h))
    {R : List (Event ι α)} (hR : Led R) : Led (trailFrom rev before after ++ R) := by
  unfold trailFrom
  cases rev with
  | false =>
    cases after with
    | nil => exact hR
    | cons x after => exact .inr ⟨_, _, rfl⟩
  | true =>
    cases before using List.reverseRecOn with
    | nil => exact hR
    | append_singleton before x =>
      rw [if_pos rfl, List.reverse_concat]
      exact .inr ⟨_, _, rfl⟩

theorem Path.led_trailFrom (rev : Bool) (p : Path ι α H h) : Led (p.trailFrom rev) := by
  induction p with
  | top => exact .inl rfl
  | down i before after up ih => exact Multiway.led_trailFrom rev before after ih

/-- The blocks that are entered before the first entry of a tree. -/
def Node.edge (rev : Bool) (n : Node ι α h) : List (Event ι α) := (n.trail rev).takeWhile isEnter

theorem takeWhile_led {T R : List (Event ι α)} (hR : Led R) :
    (T ++ R).takeWhile isEnter = T.takeWhile isEnter := by
  have hnil : R.takeWhile isEnter = [] := by
    obtain rfl | ⟨a, R, rfl⟩ := hR <;> rfl
  rw [List.takeWhile_append, hnil, List.append_nil]
  split_ifs with hlen
  · exact (List.takeWhile_prefix _).eq_of_length hlen |>.symm
  · rfl

/-- At the edge of a block its outermost child is next. -/
theorem edge_plug {rev : Bool} {i : ι} {before : List (Node ι α h × α)} {c : Node ι α h}
    {after : List (α × Node ι α h)} (hcut : if rev then after = [] else before = []) :
    (Node.plug i before c after).edge rev = .enter h i :: c.edge rev := by
  have hto : trailTo rev before after = [] := by
    unfold trailTo
    cases rev <;> simp_all
  have hled := Multiway.led_trailFrom rev before after (.inl rfl)
  rw [List.append_nil] at hled
  unfold Node.edge
  rw [trail_plug, hto, List.nil_append, List.takeWhile_cons_of_pos rfl, takeWhile_led hled]

/-- The edge of a tree reaches a leaf. -/
theorem exists_leaf_edge (rev : Bool) (n : Node ι α (h + 1)) : ∃ i, .enter 0 i ∈ n.edge rev := by
  induction h with
  | zero =>
    refine ⟨n.root.label, ?_⟩
    unfold Node.edge Node.trail
    rw [List.takeWhile_cons_of_pos rfl]
    exact List.mem_cons_self
  | succ h ih =>
    obtain ⟨j, before, c, after, rfl, hcut⟩ := n.exists_plug_edge (rev = true)
    obtain ⟨i, hi⟩ := ih c
    exact ⟨i, edge_plug hcut ▸ List.mem_cons_of_mem _ hi⟩

end IndexFs.Multiway
