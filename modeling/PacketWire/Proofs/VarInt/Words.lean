import Mathlib.Data.Nat.Bitwise
import PacketWire.Proofs.VarInt.Reading

/-!
# Numbers on machine words

A coder of numbers works on one word of 64 bits: it shifts groups into their places, and counts them
by the zeros in front. `Word.scan?`, `Word.groups` and `Word.count?` go about it in that way, with
operations that give nothing where a word does: a shift by its whole length, a count out of range.
None of them ever gives nothing, and they come to what `scan`, `groups` and `groupCount` say of the
number in the word.
-/

namespace PacketWire.VarInt

/-- Whether a byte has its high bit set, and so announces another. -/
def continues (b : UInt8) : Bool := b &&& 0x80 ≠ 0

theorem continues_iff {b : UInt8} : continues b ↔ 128 ≤ b.toNat := by
  have hbit : (b &&& 0x80).toNat = (b.toNat.testBit 7).toNat * 2 ^ 7 := by
    rw [UInt8.toNat_and]
    exact Nat.and_two_pow b.toNat 7
  have hlt : b.toNat < 256 := b.toNat_lt
  rw [continues, decide_eq_true_eq, Ne, ← UInt8.toNat_inj, hbit, Nat.testBit_eq_decide_div_mod_eq]
  by_cases h : 128 ≤ b.toNat
  · have hone : b.toNat / 2 ^ 7 % 2 = 1 := by omega
    simp only [hone, h]
    decide
  · have hzero : b.toNat / 2 ^ 7 % 2 = 0 := by omega
    simp only [hzero, h]
    decide

namespace Word

/-- `x` shifted left, by less than its whole length. -/
def shiftLeft? (x : UInt64) (n : Nat) : Option UInt64 :=
  if n < 64 then some (x <<< UInt64.ofNat n) else none

def size? (n : Nat) : Option Nat := if n < UInt64.size then some n else none

def sub? (m n : Nat) : Option Nat := if n ≤ m then some (m - n) else none

theorem size?_of_le {n : Nat} (h : n ≤ 100) : size? n = some n :=
  if_pos (Nat.lt_of_le_of_lt h (by decide))

/-- The seven bits of a byte that count. -/
def group (b : UInt8) : UInt64 := (b &&& 0x7F).toUInt64

theorem toNat_group (b : UInt8) : (group b).toNat = b.toNat % 128 := by
  rw [group, UInt8.toNat_toUInt64, UInt8.toNat_and]
  exact Nat.and_two_pow_sub_one_eq_mod b.toNat 7

/-! ## Reading -/

/-- Reads a number of at most `most` groups; `i` of them are in `value` already. -/
def scan? (most i : Nat) (value : UInt64) : Bytes → Option (Scan UInt64)
  | [] => some (if most ≤ i then .invalid else .needMore)
  | b :: bs =>
    if most ≤ i then some .invalid
    else do
      let place ← size? (7 * i)
      let part ← shiftLeft? (group b) place
      let length ← size? (i + 1)
      if continues b then scan? most length (value ||| part) bs
      else return .found (value ||| part) length

/-- One more group takes its place above those that are there; what lies beyond the word is lost. -/
theorem or_group {value : UInt64} {i : Nat} (hi : i < 10) (hv : value.toNat < 2 ^ (7 * i))
    (b : UInt8) : shiftLeft? (group b) (7 * i) = some (group b <<< UInt64.ofNat (7 * i)) ∧
      value ||| group b <<< UInt64.ofNat (7 * i) =
        UInt64.ofNat (value.toNat + (b.toNat % 128) <<< (7 * i)) := by
  refine ⟨if_pos (by omega), ?_⟩
  have hplace : (UInt64.ofNat (7 * i)).toNat % 64 = 7 * i := by
    rw [UInt64.toNat_ofNat']
    omega
  rw [← UInt64.toNat_inj, UInt64.toNat_or, UInt64.toNat_shiftLeft, hplace, toNat_group,
    UInt64.toNat_ofNat']
  have hword : value.toNat % 2 ^ 64 = value.toNat := Nat.mod_eq_of_lt value.toNat_lt
  calc value.toNat ||| (b.toNat % 128) <<< (7 * i) % 2 ^ 64
      = (value.toNat ||| (b.toNat % 128) <<< (7 * i)) % 2 ^ 64 := by
        rw [Nat.or_mod_two_pow, hword]
    _ = (value.toNat + (b.toNat % 128) <<< (7 * i)) % 2 ^ 64 := by
        rw [Nat.or_comm, ← Nat.shiftLeft_add_eq_or_of_lt hv, Nat.add_comm]

theorem toNat_or_group_lt {value i : Nat} (hv : value < 2 ^ (7 * i)) (b : UInt8) :
    (UInt64.ofNat (value + (b.toNat % 128) <<< (7 * i))).toNat < 2 ^ (7 * (i + 1)) := by
  rw [UInt64.toNat_ofNat', Nat.shiftLeft_eq, Nat.mul_add, Nat.pow_add]
  have hgroup : b.toNat % 128 * 2 ^ (7 * i) ≤ 127 * 2 ^ (7 * i) :=
    Nat.mul_le_mul_right _ (by omega)
  generalize 2 ^ (7 * i) = unit at *
  refine Nat.lt_of_le_of_lt (Nat.mod_le _ _) ?_
  omega

theorem ofNat_toNat_add (m n : Nat) :
    UInt64.ofNat ((UInt64.ofNat m).toNat + n) = UInt64.ofNat (m + n) := by
  rw [← UInt64.toNat_inj, UInt64.toNat_ofNat', UInt64.toNat_ofNat', UInt64.toNat_ofNat',
    Nat.mod_add_mod]

/-- Behind the groups in `value`, reading on words comes to what reading on numbers does. -/
theorem scan?_from {most i : Nat} {value : UInt64} (hmost : most ≤ 10) (hi : i ≤ most)
    (hv : i < most → value.toNat < 2 ^ (7 * i)) (bs : Bytes) :
    scan? most i value bs = some (((scan (most - i) bs).map fun high =>
      UInt64.ofNat (value.toNat + high <<< (7 * i))).behind i) := by
  induction bs generalizing i value with
  | nil =>
    rcases Nat.lt_or_ge i most with hlt | hge
    · obtain ⟨k, hk⟩ : ∃ k, most - i = k + 1 := ⟨most - i - 1, by omega⟩
      simp [scan?, hk, scan, Nat.not_le.mpr hlt, Scan.map, Scan.behind]
    · simp [scan?, Nat.sub_eq_zero_of_le hge, scan, hge, Scan.map, Scan.behind]
  | cons b bs ih =>
    rcases Nat.lt_or_ge i most with hlt | hge
    · obtain ⟨k, hk⟩ : ∃ k, most - i = k + 1 := ⟨most - i - 1, by omega⟩
      have hk' : most - (i + 1) = k := by omega
      obtain ⟨hshift, hor⟩ := or_group (by omega : i < 10) (hv hlt) b
      simp only [scan?, if_neg (Nat.not_le.mpr hlt), size?_of_le (by omega : 7 * i ≤ 100),
        size?_of_le (by omega : i + 1 ≤ 100), hshift, Option.bind_eq_bind, Option.bind_some, hor,
        hk, scan]
      by_cases hb : b.toNat < 128
      · simp [hb, continues_iff, Nat.mod_eq_of_lt hb, Scan.map, Scan.behind]
      · have hcont : continues b = true := continues_iff.mpr (Nat.not_lt.mp hb)
        have hvalue (high : Nat) := NumberRead.value_add ⟨i, value.toNat⟩ (Nat.not_lt.mp hb) high
        rw [if_neg hb, if_pos hcont, ih (i := i + 1) hlt fun _ => toNat_or_group_lt (hv hlt) b, hk']
        cases scan k bs with
        | found high n =>
          simp only [Scan.map, Scan.behind, ← hvalue, NumberRead.add, ofNat_toNat_add,
            Nat.add_assoc, Nat.add_comm 1 n]
        | needMore => rfl
        | invalid => rfl
    · simp [scan?, Nat.sub_eq_zero_of_le hge, scan, hge, Scan.map, Scan.behind]

theorem scan?_eq {most : Nat} (hmost : most ≤ 10) (bs : Bytes) :
    scan? most 0 0 bs = some ((scan most bs).map UInt64.ofNat) := by
  rw [scan?_from hmost (Nat.zero_le _) (fun _ => by decide)]
  cases scan most bs <;> simp [Scan.map, Scan.behind]

/-! ## Writing -/

def isLong (value : UInt64) : Bool := value &&& ~~~0x7F ≠ 0

theorem toNat_shiftRight (value : UInt64) : (value >>> 7).toNat = value.toNat / 128 := by
  rw [UInt64.toNat_shiftRight]
  simp [Nat.shiftRight_eq_div_pow]

theorem toNat_and_high (value : UInt64) :
    (value &&& ~~~0x7F).toNat = 128 * (value.toNat / 128) := by
  rw [UInt64.toNat_and]
  refine Nat.eq_of_testBit_eq fun i => ?_
  have hmask : (~~~0x7F : UInt64).toNat = 2 ^ 7 * (2 ^ 57 - 1) := by decide
  have hout : 64 ≤ i → value.toNat.testBit i = false := fun h =>
    Nat.testBit_lt_two_pow (Nat.lt_of_lt_of_le value.toNat_lt (Nat.pow_le_pow_right (by decide) h))
  rw [hmask, Nat.testBit_and, Nat.testBit_two_pow_mul, Nat.testBit_two_pow_sub_one,
    show 128 * (value.toNat / 128) = 2 ^ 7 * (value.toNat / 2 ^ 7) from rfl,
    Nat.testBit_two_pow_mul, Nat.testBit_div_two_pow]
  by_cases h7 : 7 ≤ i
  · rcases Nat.lt_or_ge i 64 with h64 | h64
    · simp [h7, show i - 7 < 57 by omega]
    · simp [h7, hout h64]
  · simp [h7]

theorem isLong_iff {value : UInt64} : isLong value ↔ 128 ≤ value.toNat := by
  rw [isLong, decide_eq_true_eq, Ne, ← UInt64.toNat_inj, toNat_and_high, UInt64.toNat_zero]
  omega

def groups (value : UInt64) : Bytes :=
  if isLong value then (value.toUInt8 &&& 0x7F ||| 0x80) :: groups (value >>> 7)
  else [value.toUInt8]
termination_by value.toNat
decreasing_by
  rename_i h
  have := isLong_iff.mp h
  rw [toNat_shiftRight]
  omega

theorem toNat_low_continued (value : UInt64) :
    (value.toUInt8 &&& 0x7F ||| 0x80).toNat = value.toNat % 128 + 128 := by
  have hlow : (value.toUInt8 &&& 0x7F).toNat = value.toNat % 128 := by
    rw [UInt8.toNat_and, UInt64.toNat_toUInt8]
    exact (Nat.and_two_pow_sub_one_eq_mod _ 7).trans (Nat.mod_mod_of_dvd _ (by decide))
  have hlt : value.toNat % 128 < 2 ^ 7 := Nat.mod_lt _ (by decide)
  rw [UInt8.toNat_or, hlow, Nat.or_comm, Nat.add_comm]
  exact (Nat.two_pow_add_eq_or_of_lt hlt 1).symm

theorem groups_eq (value : UInt64) : groups value = VarInt.groups value.toNat := by
  fun_induction groups value with
  | case1 value h ih =>
    have hlong := isLong_iff.mp h
    rw [VarInt.groups, if_neg (by omega), ih, toNat_shiftRight]
    congr 1
    rw [← UInt8.toNat_inj, toNat_low_continued, toNat_ofNat_of_lt (by omega)]
  | case2 value h =>
    have hshort : value.toNat < 128 := Nat.not_le.mp fun hle => h (isLong_iff.mpr hle)
    rw [VarInt.groups, if_pos hshort]
    rfl

/-- How many bits of a word are in use, by the zeros in front of them. -/
def bits? (value : UInt64) : Option Nat := sub? 64 value.toBitVec.clz.toNat

/-- How many groups a word takes. -/
def count? (value : UInt64) : Option Nat := do
  let bits ← bits? value
  return (max bits 1 + 6) / 7

theorem bits?_eq (value : UInt64) :
    bits? value = some (if value.toNat = 0 then 0 else value.toNat.log2 + 1) := by
  have hle : value.toBitVec.clz.toNat ≤ 64 := BitVec.clz_le
  have hlt : value.toNat < 2 ^ (64 - value.toBitVec.clz.toNat) := BitVec.toNat_lt_two_pow_sub_clz
  rw [bits?, sub?, if_pos hle, Option.some.injEq]
  by_cases h0 : value = 0
  · rw [h0]
    decide
  · have hzero : value.toNat ≠ 0 := fun h => h0 (UInt64.toNat_inj.mp h)
    have hbits : value.toBitVec ≠ 0#64 := fun h => h0 (UInt64.toBitVec_inj.mp h)
    have hge : 2 ^ (64 - 1 - value.toBitVec.clz.toNat) ≤ value.toNat :=
      BitVec.two_pow_sub_clz_le_toNat_of_ne_zero (by decide) hbits
    have hclz : value.toBitVec.clz.toNat < 64 := by
      refine Nat.lt_of_le_of_ne hle fun h => ?_
      rw [h] at hlt
      exact hzero (Nat.lt_one_iff.mp hlt)
    have hlog : value.toNat.log2 = 64 - 1 - value.toBitVec.clz.toNat := by
      refine (Nat.log2_eq_iff hzero).mpr ⟨hge, ?_⟩
      rwa [show 64 - 1 - value.toBitVec.clz.toNat + 1 = 64 - value.toBitVec.clz.toNat by omega]
    rw [if_neg hzero, hlog]
    omega

theorem count?_eq (value : UInt64) : count? value = some (groupCount value.toNat) := by
  rw [count?, bits?_eq]
  rfl

end Word

end PacketWire.VarInt
