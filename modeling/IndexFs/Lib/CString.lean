import Mathlib.Tactic
import Mathlib.Data.List.GetD

/-!
# Strings of C

Bytes up to the first zero. `cStr m off n` is the string at `off`, cut after `n`
bytes, and `strncpy` is the function of the C library: it copies at most `n` bytes,
fills up with zeros if the source is shorter, and puts no zero behind the copy if
it is not.

* `cStr_of_holds`: a string in memory goes on behind its first bytes.
* `strncpy_holds`, `strncpy_outside`: what a copy leaves in memory.
-/

namespace IndexFs

/-- The string at `off`, or its first `n` bytes. -/
def cStr (m : ℤ → UInt8) (off : ℤ) : (n : ℕ) → List UInt8
  | 0 => []
  | n + 1 => if m off = 0 then [] else m off :: cStr m (off + 1) n

/-- `strncpy(dst + d, src + o, n)`. -/
def strncpy (dst : ℤ → UInt8) (d : ℤ) (src : ℤ → UInt8) (o : ℤ) (n : ℕ) : ℤ → UInt8 := fun i =>
  if d ≤ i ∧ i < d + n then (cStr src o n).getD (i - d).toNat 0 else dst i

/-- The bytes `l` are at `off`. -/
def Holds (m : ℤ → UInt8) (off : ℤ) (l : List UInt8) : Prop := ∀ i : ℕ, i < l.length → m (off + i) = l.getD i 0

/-- A buffer of `n` bytes with the string `l` and zeros behind it. -/
structure Padded (m : ℤ → UInt8) (off : ℤ) (n : ℕ) (l : List UInt8) : Prop where
  nonzero : 0 ∉ l
  short : l.length < n
  holds : Holds m off l
  zeros : ∀ i : ℕ, l.length ≤ i → i < n → m (off + i) = 0

/-- A string, as a program gets it: no byte of it is zero. -/
structure CString where
  bytes : List UInt8
  nonzero : 0 ∉ bytes
  deriving DecidableEq

/-- The string in memory, with the zero behind it. -/
def CString.text (c : CString) : ℤ → UInt8 := fun i => c.bytes.getD i.toNat 0

section

variable {m m' : ℤ → UInt8} {off d o : ℤ} {n : ℕ} {l l' : List UInt8}

theorem Holds.congr (h : Holds m off l) (hm : ∀ i : ℤ, off ≤ i → i < off + l.length → m' i = m i) :
    Holds m' off l := by
  intro i hi
  rw [hm _ (by omega) (by omega), h i hi]

theorem holds_append : Holds m off (l ++ l') ↔ Holds m off l ∧ Holds m (off + l.length) l' := by
  constructor
  · intro h
    refine ⟨fun i hi => ?_, fun i hi => ?_⟩
    · rw [h i (by rw [List.length_append]; omega), List.getD_append _ _ _ _ hi]
    · rw [add_assoc, ← Nat.cast_add, h _ (by rw [List.length_append]; omega),
        List.getD_append_right _ _ _ _ (by omega), Nat.add_sub_cancel_left]
  · rintro ⟨h, h'⟩ i hi
    rw [List.length_append] at hi
    by_cases hlt : i < l.length
    · rw [h i hlt, List.getD_append _ _ _ _ hlt]
    · have := h' (i - l.length) (by omega)
      rw [add_assoc, ← Nat.cast_add, Nat.add_sub_cancel' (by omega)] at this
      rw [this, List.getD_append_right _ _ _ _ (by omega)]

theorem cStr_zero (h : m off = 0) : cStr m off n = [] := by
  cases n with
  | zero => rfl
  | succ n => exact if_pos h

/-- A string that starts with `l`. -/
theorem cStr_of_holds (hl : 0 ∉ l) (h : Holds m off l) (hn : l.length ≤ n) :
    cStr m off n = l ++ cStr m (off + l.length) (n - l.length) := by
  induction l generalizing off n with
  | nil => simp
  | cons c l ih =>
    obtain ⟨n, rfl⟩ : ∃ n', n = n' + 1 := ⟨n - 1, by rw [List.length_cons] at hn; omega⟩
    rw [List.mem_cons, not_or] at hl
    have hfirst : m off = c := by simpa using h 0 (by simp)
    have hrest : Holds m (off + 1) l := by
      have hcons : Holds m off ([c] ++ l) := h
      exact_mod_cast (holds_append.mp hcons).2
    rw [List.length_cons] at hn ⊢
    conv_lhs => unfold cStr
    rw [if_neg (by rw [hfirst]; exact Ne.symm hl.1), hfirst, ih hl.2 hrest (by omega), List.cons_append]
    push_cast
    rw [show off + ((l.length : ℤ) + 1) = off + 1 + l.length by ring]

theorem Padded.cStr (h : Padded m off n l) : cStr m off n = l := by
  rw [cStr_of_holds h.nonzero h.holds h.short.le, cStr_zero (h.zeros _ le_rfl h.short), List.append_nil]

/-- The bytes copied, if the source has as many. -/
theorem strncpy_holds (h : (cStr m o n).length = n) : Holds (strncpy m' d m o n) d (cStr m o n) := by
  intro i hi
  unfold strncpy
  rw [if_pos ⟨by omega, by omega⟩, add_sub_cancel_left, Int.toNat_natCast]

theorem strncpy_outside {i : ℤ} (h : i < d ∨ d + n ≤ i) : strncpy m' d m o n i = m' i := by
  unfold strncpy
  rw [if_neg (by omega)]

theorem CString.cStr_text (c : CString) (h : n ≤ c.bytes.length) : cStr c.text 0 n = c.bytes.take n := by
  have hlen : (c.bytes.take n).length = n := List.length_take_of_le h
  have hholds : Holds c.text 0 (c.bytes.take n) := by
    intro i hi
    rw [hlen] at hi
    unfold CString.text
    rw [zero_add, Int.toNat_natCast, List.getD_eq_getElem?_getD, List.getD_eq_getElem?_getD,
      List.getElem?_take_of_lt hi]
  rw [cStr_of_holds (fun h0 => c.nonzero (List.mem_of_mem_take h0)) hholds hlen.le, hlen, Nat.sub_self]
  exact List.append_nil _

/-- A copy over the first bytes of a padded buffer: what was behind them is still there. -/
theorem Padded.strncpy (h : Padded m off n l) {k : ℕ} {src : List UInt8} (hsrc : IndexFs.cStr m' o k = src) (hk : src.length = k)
    (hnonzero : 0 ∉ src) (hn : k < n) : Padded (strncpy m off m' o k) off n (src ++ l.drop k) := by
  subst hsrc
  have hcopied : Holds (IndexFs.strncpy m off m' o k) off (IndexFs.cStr m' o k) := strncpy_holds hk
  refine ⟨?_, ?_, holds_append.mpr ⟨hcopied, ?_⟩, ?_⟩
  · rw [List.mem_append, not_or]
    exact ⟨hnonzero, fun h0 => h.nonzero (List.mem_of_mem_drop h0)⟩
  · have := h.short
    rw [List.length_append, List.length_drop, hk]
    omega
  · intro i hi
    rw [List.length_drop] at hi
    rw [strncpy_outside (by omega), hk, add_assoc, ← Nat.cast_add, h.holds _ (by omega),
      List.getD_eq_getElem?_getD, List.getD_eq_getElem?_getD, List.getElem?_drop]
  · intro i hlo hhi
    rw [List.length_append, List.length_drop, hk] at hlo
    rw [strncpy_outside (by omega), h.zeros i (by omega) hhi]

end

end IndexFs
