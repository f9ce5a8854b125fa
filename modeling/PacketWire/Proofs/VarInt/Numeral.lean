import PacketWire.VarInt

/-!
# Numerals

`Numeral bs n` says that `bs` is a way to write `n` in groups: every byte but the last has its
high bit set. Scanning finds exactly the numeral at the front of a byte string, and once it has
found one or refused, more bytes behind make no difference. `groups` writes a numeral, and
`groupCount` is its length.
-/

namespace PacketWire.VarInt

/-- `bs` is a numeral of `n`: groups of seven bits, least significant first. -/
inductive Numeral : Bytes → Nat → Prop where
  | last {b : UInt8} : b.toNat < 128 → Numeral [b] b.toNat
  | more {b : UInt8} {bs : Bytes} {n : Nat} : 128 ≤ b.toNat → Numeral bs n →
      Numeral (b :: bs) (b.toNat - 128 + 128 * n)

theorem Numeral.length_pos {bs : Bytes} {n : Nat} (h : Numeral bs n) : 0 < bs.length := by
  cases h <;> simp

theorem scan_of_numeral {s : Bytes} {n : Nat} (h : Numeral s n) (rest : Bytes) {limit : Nat}
    (hl : s.length ≤ limit) : scan limit (s ++ rest) = .found n s.length := by
  induction h generalizing limit with
  | last hb =>
    obtain ⟨limit, rfl⟩ : ∃ k, limit = k + 1 := ⟨limit - 1, by simp at hl; omega⟩
    simp [scan, hb]
  | more hb _ ih =>
    obtain ⟨limit, rfl⟩ : ∃ k, limit = k + 1 := ⟨limit - 1, by simp at hl; omega⟩
    have hs : scan limit _ = _ := ih (by simpa using hl)
    simp [scan, Nat.not_lt.mpr hb, hs]

theorem numeral_of_scan {limit k n : Nat} {bs : Bytes} (h : scan limit bs = .found n k) :
    ∃ s rest, bs = s ++ rest ∧ Numeral s n ∧ s.length = k ∧ k ≤ limit := by
  fun_induction scan limit bs generalizing k n with
  | case1 => cases h
  | case2 => cases h
  | case3 limit b bs hb =>
    cases h
    exact ⟨[b], bs, rfl, .last hb, rfl, by omega⟩
  | case4 limit b bs hb high m hs ih =>
    cases h
    obtain ⟨s, rest, rfl, hn, hlen, hk⟩ := ih hs
    exact ⟨b :: s, rest, rfl, .more (Nat.not_lt.mp hb) hn, by simp [hlen], by omega⟩
  | case5 => cases h
  | case6 => cases h

/-- Scanning finds the numeral at the front, and no other. -/
theorem scan_eq_found_iff {limit k n : Nat} {bs : Bytes} :
    scan limit bs = .found n k ↔
      ∃ s rest, bs = s ++ rest ∧ Numeral s n ∧ s.length = k ∧ k ≤ limit := by
  constructor
  · exact numeral_of_scan
  · rintro ⟨s, rest, rfl, hn, rfl, hk⟩
    exact scan_of_numeral hn rest hk

theorem scan_eq_invalid_iff {limit : Nat} {bs : Bytes} :
    scan limit bs = .invalid ↔ limit ≤ bs.length ∧ ∀ b ∈ bs.take limit, 128 ≤ b.toNat := by
  fun_induction scan limit bs with
  | case1 => simp
  | case2 => simp
  | case3 limit b bs hb =>
    simp only [reduceCtorEq, List.take_succ_cons, List.forall_mem_cons, false_iff]
    omega
  | case4 limit b bs hb high n hs ih => simpa [hs, Nat.not_lt.mp hb] using ih
  | case5 limit b bs hb hs ih => simpa [hs, Nat.not_lt.mp hb] using ih
  | case6 limit b bs hb hs ih => simpa [hs, Nat.not_lt.mp hb] using ih

theorem scan_append {limit : Nat} {bs : Bytes} (more : Bytes) (h : scan limit bs ≠ .needMore) :
    scan limit (bs ++ more) = scan limit bs := by
  fun_induction scan limit bs with
  | case1 => rfl
  | case2 => exact absurd rfl h
  | case3 limit b bs hb => simp [scan, hb]
  | case4 limit b bs hb high m hs ih =>
    have := ih (by simp [hs])
    simp [scan, hb, this, hs]
  | case5 => exact absurd rfl h
  | case6 limit b bs hb hs ih =>
    have := ih (by simp [hs])
    simp [scan, hb, this, hs]

theorem toNat_ofNat_of_lt {n : Nat} (h : n < 256) : (UInt8.ofNat n).toNat = n := by
  simp [Nat.mod_eq_of_lt h]

theorem numeral_groups (n : Nat) : Numeral (groups n) n := by
  fun_induction groups n with
  | case1 n h =>
    have hb : (UInt8.ofNat n).toNat = n := toNat_ofNat_of_lt (by omega)
    simpa [hb] using Numeral.last (b := UInt8.ofNat n) (by omega)
  | case2 n h ih =>
    have hb : (UInt8.ofNat (n % 128 + 128)).toNat = n % 128 + 128 := toNat_ofNat_of_lt (by omega)
    have := Numeral.more (b := UInt8.ofNat (n % 128 + 128)) (by omega) ih
    rwa [hb, show n % 128 + 128 - 128 + 128 * (n / 128) = n by omega] at this

theorem groupCount_of_lt {n : Nat} (h : n < 128) : groupCount n = 1 := by
  unfold groupCount
  split
  · simp
  · have : n.log2 < 7 := (Nat.log2_lt (by omega)).mpr (by omega)
    simp only
    omega

theorem groupCount_div {n : Nat} (h : 128 ≤ n) : groupCount n = groupCount (n / 128) + 1 := by
  have hl : n.log2 = (n / 128).log2 + 7 := by
    have h1 : (n / 128).log2 = (n / 128).log2 := rfl
    have hq : n / 128 ≠ 0 := by omega
    rw [Nat.log2_eq_iff hq] at h1
    rw [Nat.log2_eq_iff (by omega)]
    have e1 : 2 ^ ((n / 128).log2 + 7) = 2 ^ (n / 128).log2 * 128 := by rw [Nat.pow_add]
    have e2 : 2 ^ ((n / 128).log2 + 7 + 1) = 2 ^ ((n / 128).log2 + 1) * 128 := by
      rw [show (n / 128).log2 + 7 + 1 = (n / 128).log2 + 1 + 7 by omega, Nat.pow_add]
    rw [e1, e2]
    generalize 2 ^ (n / 128).log2 = lo at *
    generalize 2 ^ ((n / 128).log2 + 1) = hi at *
    omega
  have h0 : n ≠ 0 := by omega
  have h1 : n / 128 ≠ 0 := by omega
  simp only [groupCount, h0, h1, if_false, hl]
  omega

theorem length_groups (n : Nat) : (groups n).length = groupCount n := by
  fun_induction groups n with
  | case1 n h => simp [groupCount_of_lt h]
  | case2 n h ih => simp [ih, groupCount_div (Nat.not_lt.mp h)]

/-- A number of so many bits takes one group for each begun seven. -/
theorem groupCount_le {n bits : Nat} (h : n.log2 < bits) : groupCount n ≤ (bits + 6) / 7 := by
  simp only [groupCount]
  split
  · omega
  · omega

/-- `bs` is a numeral of at most five groups, and `v` is its value as a 32-bit number. -/
def Numeral32 (bs : Bytes) (v : Int32) : Prop :=
  ∃ n, Numeral bs n ∧ bs.length ≤ maxLength32 ∧ v = Int32.ofNat n

theorem Numeral32.length_pos {bs : Bytes} {v : Int32} (h : Numeral32 bs v) : 0 < bs.length := by
  obtain ⟨n, hn, -, -⟩ := h
  exact hn.length_pos

theorem scan32_eq_found_iff {bs : Bytes} {v : Int32} {k : Nat} :
    scan32 bs = .found v k ↔ ∃ s rest, bs = s ++ rest ∧ Numeral32 s v ∧ s.length = k := by
  unfold scan32
  constructor
  · intro h
    cases hs : scan maxLength32 bs with
    | found n m =>
      rw [hs] at h
      cases h
      obtain ⟨s, rest, rfl, hn, rfl, hk⟩ := scan_eq_found_iff.mp hs
      exact ⟨s, rest, rfl, ⟨n, hn, hk, rfl⟩, rfl⟩
    | needMore => rw [hs] at h; cases h
    | invalid => rw [hs] at h; cases h
  · rintro ⟨s, rest, rfl, ⟨n, hn, hk, rfl⟩, rfl⟩
    rw [scan_eq_found_iff.mpr ⟨s, rest, rfl, hn, rfl, hk⟩]
    rfl

theorem scan32_of_numeral {s : Bytes} {v : Int32} (h : Numeral32 s v) (rest : Bytes) :
    scan32 (s ++ rest) = .found v s.length :=
  scan32_eq_found_iff.mpr ⟨s, rest, rfl, h, rfl⟩

theorem scan32_eq_invalid_iff {bs : Bytes} : scan32 bs = .invalid ↔
    maxLength32 ≤ bs.length ∧ ∀ b ∈ bs.take maxLength32, 128 ≤ b.toNat := by
  rw [← scan_eq_invalid_iff, scan32]
  cases scan maxLength32 bs <;> simp [Scan.map]

theorem scan32_append {bs : Bytes} (more : Bytes) (h : scan32 bs ≠ .needMore) :
    scan32 (bs ++ more) = scan32 bs := by
  unfold scan32 at *
  rw [scan_append more]
  intro hs
  exact h (by rw [hs]; rfl)

theorem length_encode32 (v : Int32) : (encode32 v).length = length32 v := length_groups _

theorem length32_le (v : Int32) : length32 v ≤ maxLength32 := by
  have hv : v.toUInt32.toNat.log2 < 32 := by
    by_cases h0 : v.toUInt32.toNat = 0
    · rw [h0]
      decide
    · exact (Nat.log2_lt h0).mpr v.toUInt32.toNat_lt
  exact groupCount_le hv

theorem numeral32_encode32 (v : Int32) : Numeral32 (encode32 v) v := by
  refine ⟨v.toUInt32.toNat, numeral_groups _, ?_, ?_⟩
  · rw [length_encode32]
    exact length32_le v
  · rw [← UInt32.toInt32_ofNat', UInt32.ofNat_toNat, Int32.toInt32_toUInt32]

end PacketWire.VarInt
