import IndexFs.Collate.Rules

/-!
# Extent pairs

`os_extent_to_extent_pair` and `os_extent_pair_to_extent` of
`object_system/ofs_collate.c` (lines 302–330): one byte for the size of the
address, the address, and the length in the bytes that are left.

Results:

* `osU64Size_le_length`: no byte string that decodes to a number is shorter than
  its encoding, and `Shortest.eq_osU64ToBstr`: the encoding is the only one of its size.
* `extentPair_codec`: decoding a pair gives back what was encoded, a prefix without
  a length decodes to the length `0`, and a pair of shortest encodings is what its
  numbers are encoded to, unless the length is `0`.
* `extentPair_length_zero`: a pair with the length `0` is not encoded again.
-/

namespace IndexFs.Collate

/-- `EXT_PAIR_HEADER_SIZE`. -/
def extPairHeaderSize : ℕ := 1

/-- `U64_MAX_SIZE`. -/
def u64MaxSize : ℕ := 8

/-- `EXT_PAIR_MAX_SIZE`. -/
def extPairMaxSize : ℕ := u64MaxSize + u64MaxSize + extPairHeaderSize

/-- `os_extent_to_extent_pair` (lines 302–315): the bytes it writes, as many as it returns. -/
def osExtentToExtentPair (pa len : ℕ) : Bytes :=
  if len = 0 then []
  else UInt8.ofNat (osU64Size pa) :: (osU64ToBstr pa ++ osU64ToBstr len)

/-! ## Shortest encodings -/

/-- No byte string of one to eight bytes that decodes to the same number is shorter. -/
def Shortest (b : Bytes) : Prop :=
  ∀ b' x, osBstrToU64 b = .ok x → osBstrToU64 b' = .ok x → b.length ≤ b'.length

section Shortest

variable {b : Bytes} {x : ℕ}

theorem osBstrToU64_eq_ok : osBstrToU64 b = .ok x ↔
    1 ≤ b.length ∧ b.length ≤ 8 ∧ Nat.ofDigits 256 (b.map UInt8.toNat) = x := by
  unfold osBstrToU64
  split_ifs with h
  · simp
    omega
  · rw [Except.ok.injEq]
    exact ⟨fun hx => ⟨by omega, by omega, hx⟩, fun hx => hx.2.2⟩

theorem toNat_lt_base {l : Bytes} : ∀ d ∈ l.map UInt8.toNat, d < 256 := by
  intro d hd
  obtain ⟨c, -, rfl⟩ := List.mem_map.mp hd
  exact c.toNat_lt

/-- What decodes is a 64-bit number. -/
theorem osBstrToU64_lt (h : osBstrToU64 b = .ok x) : x < 256 ^ b.length ∧ x < 2 ^ 64 := by
  obtain ⟨-, h8, rfl⟩ := osBstrToU64_eq_ok.mp h
  have hlt := Nat.ofDigits_lt_base_pow_length (by norm_num) (toNat_lt_base (l := b))
  rw [List.length_map] at hlt
  refine ⟨hlt, hlt.trans_le ?_⟩
  calc 256 ^ b.length ≤ 256 ^ 8 := Nat.pow_le_pow_right (by norm_num) h8
    _ = 2 ^ 64 := by norm_num

theorem length_osU64ToBstr : (osU64ToBstr x).length = osU64Size x := by
  unfold osU64ToBstr
  rw [List.length_map, List.length_range]

theorem osU64SizeLoop_le_pos (x pos : ℕ) : osU64SizeLoop x pos (pos + 1) ≤ pos + 1 := by
  induction pos with
  | zero => exact le_refl _
  | succ pos ih =>
    unfold osU64SizeLoop
    split_ifs
    · exact le_refl _
    · exact ih.trans (Nat.le_succ _)

/-- The loop of `os_u64_size` stops at the highest byte that is not zero. -/
theorem osU64SizeLoop_le {n pos : ℕ} (hn : 1 ≤ n) (hx : x < 256 ^ n) (hpos : n ≤ pos + 1) :
    osU64SizeLoop x pos (pos + 1) ≤ n := by
  induction pos with
  | zero => exact (by decide : osU64SizeLoop 0 0 1 = 1) ▸ hn
  | succ pos ih =>
    unfold osU64SizeLoop
    rcases Nat.lt_or_ge (pos + 1) n with hlt | hge
    · split_ifs
      · omega
      · have hle := osU64SizeLoop_le_pos x pos
        rw [Nat.add_sub_cancel]
        omega
    · have hzero : u64Byte x (pos + 1) = 0 := by
        have hlt : x < 256 ^ (pos + 1) := hx.trans_le (Nat.pow_le_pow_right (by norm_num) hge)
        unfold u64Byte
        rw [Nat.div_eq_of_lt hlt]
      rw [if_neg (by rw [hzero]; simp), Nat.add_sub_cancel]
      exact ih hge

/-- The encoding of a number is as short as any byte string that decodes to it. -/
theorem osU64Size_le_length (h : osBstrToU64 b = .ok x) : osU64Size x ≤ b.length := by
  obtain ⟨h1, h8, -⟩ := osBstrToU64_eq_ok.mp h
  have hloop := osU64SizeLoop_le h1 (osBstrToU64_lt h).1 (by omega : b.length ≤ 7 + 1)
  unfold osU64Size
  dsimp only
  split_ifs
  · exact h1
  · exact hloop

/-- A number has one encoding of the shortest size. -/
theorem Shortest.eq_osU64ToBstr (hs : Shortest b) (h : osBstrToU64 b = .ok x) : osU64ToBstr x = b := by
  have hx := (osBstrToU64_lt h).2
  have henc := osBstrToU64_osU64ToBstr hx
  have hlen : (osU64ToBstr x).length = b.length := by
    refine le_antisymm ?_ (hs _ _ h henc)
    rw [length_osU64ToBstr]
    exact osU64Size_le_length h
  have hdigits : Nat.ofDigits 256 ((osU64ToBstr x).map UInt8.toNat) =
      Nat.ofDigits 256 (b.map UInt8.toNat) := by
    rw [(osBstrToU64_eq_ok.mp henc).2.2, (osBstrToU64_eq_ok.mp h).2.2]
  have hmap := Nat.ofDigits_inj_of_len_eq (by norm_num) (by rw [List.length_map, List.length_map, hlen])
    toNat_lt_base toNat_lt_base hdigits
  exact List.map_injective_iff.mpr (fun _ _ => UInt8.toNat_inj.mp) hmap

end Shortest

/-! ## Pairs -/

section Pairs

variable {pa len : ℕ}

theorem osU64Size_toUInt8 (hpa : pa < 2 ^ 64) : (UInt8.ofNat (osU64Size pa)).toNat = osU64Size pa := by
  obtain ⟨-, -, h8⟩ := osU64Size_spec hpa
  rw [UInt8.toNat_ofNat']
  omega

theorem length_osExtentToExtentPair (hlen : len ≠ 0) :
    (osExtentToExtentPair pa len).length = 1 + osU64Size pa + osU64Size len := by
  unfold osExtentToExtentPair
  rw [if_neg hlen, List.length_cons, List.length_append, length_osU64ToBstr, length_osU64ToBstr]
  omega

/-- A pair decodes to the numbers it was made from. -/
theorem osExtentPairToExtent_pair (hpa : pa < 2 ^ 64) (hlen : len < 2 ^ 64) (hne : len ≠ 0) :
    osExtentPairToExtent (osExtentToExtentPair pa len) = .ok (len, some pa) := by
  have hsize := osU64Size_toUInt8 hpa
  have htotal : (osExtentToExtentPair pa len).length = 1 + osU64Size pa + osU64Size len :=
    length_osExtentToExtentPair hne
  have hpos := (osU64Size_spec hlen).2.1
  unfold osExtentToExtentPair at htotal ⊢
  rw [if_neg hne] at htotal ⊢
  unfold osExtentPairToExtent
  dsimp only
  rw [if_neg (by rw [htotal, hsize]; omega), hsize, ← length_osU64ToBstr, List.take_left, List.drop_left,
    osBstrToU64_osU64ToBstr hpa, osBstrToU64_osU64ToBstr hlen]
  rfl

/-- A pair that ends before the length is invalid. -/
theorem osExtentPairToExtent_take (hpa : pa < 2 ^ 64) (hne : len ≠ 0) {n : ℕ} (h1 : 1 ≤ n)
    (hn : n ≤ 1 + osU64Size pa) :
    osExtentPairToExtent ((osExtentToExtentPair pa len).take n) = .ok (0, none) := by
  obtain ⟨n, rfl⟩ : ∃ n', n = n' + 1 := ⟨n - 1, by omega⟩
  unfold osExtentToExtentPair
  rw [if_neg hne, List.take_succ_cons]
  unfold osExtentPairToExtent
  dsimp only
  rw [osU64Size_toUInt8 hpa, if_pos]
  rw [List.length_cons, List.length_take]
  omega

/-- The numbers of a pair, as they lie in its bytes. -/
theorem osExtentPairToExtent_eq_ok {p : Bytes} (h : osExtentPairToExtent p = .ok (len, some pa)) :
    ∃ s rest, p = s :: rest ∧ osBstrToU64 (rest.take s.toNat) = .ok pa ∧
      osBstrToU64 (rest.drop s.toNat) = .ok len := by
  cases p with
  | nil => cases h
  | cons s rest =>
    unfold osExtentPairToExtent at h
    dsimp only at h
    split_ifs at h
    · cases h
    · refine ⟨s, rest, rfl, ?_⟩
      cases hpa : osBstrToU64 (rest.take s.toNat) with
      | error e => rw [hpa] at h; cases h
      | ok x =>
        cases hlen : osBstrToU64 (rest.drop s.toNat) with
        | error e => rw [hpa, hlen] at h; cases h
        | ok y =>
          rw [hpa, hlen] at h
          cases h
          exact ⟨rfl, rfl⟩

/-- The two numbers in a pair are shortest encodings. -/
def ShortestPair : Bytes → Prop
  | [] => False
  | s :: rest => Shortest (rest.take s.toNat) ∧ Shortest (rest.drop s.toNat)

/-- Encoding the numbers of a pair of shortest encodings gives the pair. -/
theorem osExtentToExtentPair_of_shortest {p : Bytes} (h : osExtentPairToExtent p = .ok (len, some pa))
    (hs : ShortestPair p) (hne : len ≠ 0) : osExtentToExtentPair pa len = p := by
  obtain ⟨s, rest, rfl, hpa, hlen⟩ := osExtentPairToExtent_eq_ok h
  have hpaEnc := hs.1.eq_osU64ToBstr hpa
  have hlenEnc := hs.2.eq_osU64ToBstr hlen
  have hsize : osU64Size pa = s.toNat := by
    have hpos := (osBstrToU64_eq_ok.mp hlen).1
    rw [← length_osU64ToBstr, hpaEnc, List.length_take]
    rw [List.length_drop] at hpos
    omega
  unfold osExtentToExtentPair
  rw [if_neg hne, hsize, hpaEnc, hlenEnc, List.take_append_drop, UInt8.ofNat_toNat]

end Pairs

/-- The codec of extent pairs and of the numbers in them. -/
theorem extentPair_codec :
    (∀ pa len, pa < 2 ^ 64 → 1 ≤ len → len < 2 ^ 64 →
      (3 ≤ (osExtentToExtentPair pa len).length ∧
        (osExtentToExtentPair pa len).length ≤ extPairMaxSize) ∧
      osExtentPairToExtent (osExtentToExtentPair pa len) = .ok (len, some pa) ∧
      ∀ n, 1 ≤ n → n ≤ extPairHeaderSize + osU64Size pa →
        osExtentPairToExtent ((osExtentToExtentPair pa len).take n) = .ok (0, none)) ∧
    (∀ x, x < 2 ^ 64 → (osU64ToBstr x).length = osU64Size x ∧ 1 ≤ osU64Size x ∧
      osBstrToU64 (osU64ToBstr x) = .ok x ∧ ∀ b, osBstrToU64 b = .ok x → osU64Size x ≤ b.length) ∧
    ∀ p pa len, osExtentPairToExtent p = .ok (len, some pa) → ShortestPair p → 1 ≤ len →
      osExtentToExtentPair pa len = p := by
  refine ⟨fun pa len hpa h1 hlen => ⟨?_, osExtentPairToExtent_pair hpa hlen (by omega), fun n hn1 hn =>
    osExtentPairToExtent_take hpa (by omega) hn1 hn⟩, fun x hx => ⟨length_osU64ToBstr,
      (osU64Size_spec hx).2.1, osBstrToU64_osU64ToBstr hx, fun b hb => osU64Size_le_length hb⟩,
    fun p pa len h hs h1 => osExtentToExtentPair_of_shortest h hs (by omega)⟩
  obtain ⟨-, hpa1, hpa8⟩ := osU64Size_spec hpa
  obtain ⟨-, hlen1, hlen8⟩ := osU64Size_spec hlen
  rw [length_osExtentToExtentPair (by omega)]
  unfold extPairMaxSize u64MaxSize extPairHeaderSize
  omega

/-- The address `5` with the length `0`, each in one byte: the pair decodes to them, but they are not
encoded again. -/
theorem extentPair_length_zero :
    ¬ ∀ p pa len, osExtentPairToExtent p = .ok (len, some pa) → ShortestPair p →
      osExtentToExtentPair pa len = p := by
  intro h
  have hshort : ∀ c : UInt8, Shortest [c] := fun c b' x hb hb' => (osBstrToU64_eq_ok.mp hb').1
  exact absurd (h [1, 5, 0] 5 0 rfl ⟨hshort 5, hshort 0⟩) (by decide)

end IndexFs.Collate
