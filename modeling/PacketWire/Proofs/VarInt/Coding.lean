import Mathlib.Data.Nat.Digits.Defs
import PacketWire.Proofs.VarInt.Words

/-!
# Coding of numbers

`Codes` is what coding numbers of a width comes to. Every number is found again at the front of
whatever starts with it, in no fewer bytes than it was written in, and not before its last byte is
there. Of any other bytes the bits that announce another byte tell whether they start with a number,
are the start of one or never will be; what is found is the sum of the groups, as far as the width
holds it. Words of 64 bits are enough for all of it, at both widths (`codes_exactly`).
-/

namespace PacketWire.VarInt

/-- The first number of `bs` ends with byte `k`: every byte before it announces another. -/
def EndsAt (bs : Bytes) (k : Nat) : Prop :=
  ∃ init last rest, bs = init ++ last :: rest ∧ init.length + 1 = k ∧
    (∀ b ∈ init, continues b) ∧ ¬ continues last

/-- What the groups of `bs` add up to, least significant group first. -/
def groupSum (bs : Bytes) : Nat := Nat.ofDigits 128 (bs.map fun b => b.toNat % 128)

theorem groupSum_cons (b : UInt8) (bs : Bytes) :
    groupSum (b :: bs) = b.toNat % 128 + 128 * groupSum bs := by
  simp [groupSum, Nat.ofDigits_cons]

theorem Numeral.cons {b : UInt8} {bs : Bytes} {n : Nat} (hb : continues b) (h : Numeral bs n) :
    Numeral (b :: bs) (b.toNat % 128 + 128 * n) := by
  have hb' := continues_iff.mp hb
  have hlt : b.toNat < 256 := b.toNat_lt
  rw [show b.toNat % 128 = b.toNat - 128 by omega]
  exact .more hb' h

theorem numeral_of_continues {init : Bytes} {last : UInt8} (h : ∀ b ∈ init, continues b)
    (hl : ¬ continues last) : Numeral (init ++ [last]) (groupSum (init ++ [last])) := by
  induction init with
  | nil =>
    have hlt : last.toNat < 128 := Nat.not_le.mp fun hle => hl (continues_iff.mpr hle)
    have hsum : groupSum [last] = last.toNat := by
      simp [groupSum, Nat.mod_eq_of_lt hlt]
    rw [List.nil_append, hsum]
    exact .last hlt
  | cons b init ih =>
    rw [List.forall_mem_cons] at h
    rw [List.cons_append, groupSum_cons]
    exact (ih h.2).cons h.1

theorem Numeral.continues {s : Bytes} {n : Nat} (h : Numeral s n) :
    ∃ init last, s = init ++ [last] ∧ (∀ b ∈ init, continues b) ∧ ¬ continues last ∧
      n = groupSum s := by
  induction h with
  | @last b hb =>
    refine ⟨[], b, rfl, by simp, fun hc => ?_, ?_⟩
    · have := continues_iff.mp hc
      omega
    · simp [groupSum, Nat.mod_eq_of_lt hb]
  | @more b bs n hb _ ih =>
    obtain ⟨init, last, rfl, hinit, hlast, hsum⟩ := ih
    have hlt : b.toNat < 256 := b.toNat_lt
    refine ⟨b :: init, last, rfl, ?_, hlast, ?_⟩
    · exact List.forall_mem_cons.mpr ⟨continues_iff.mpr hb, hinit⟩
    · rw [groupSum_cons, ← hsum]
      omega

/-- Scanning finds the number that ends within the limit, and what its groups add up to. -/
theorem scan_eq_found_iff_endsAt {limit k n : Nat} {bs : Bytes} :
    scan limit bs = .found n k ↔ k ≤ limit ∧ EndsAt bs k ∧ n = groupSum (bs.take k) := by
  rw [scan_eq_found_iff]
  constructor
  · rintro ⟨s, rest, rfl, hn, rfl, hk⟩
    obtain ⟨init, last, rfl, hinit, hlast, hsum⟩ := hn.continues
    refine ⟨hk, ⟨init, last, rest, by simp, by simp, hinit, hlast⟩, ?_⟩
    rwa [List.take_left]
  · rintro ⟨hk, ⟨init, last, rest, rfl, rfl, hinit, hlast⟩, rfl⟩
    have hlength : (init ++ [last]).length = init.length + 1 := by
      rw [List.length_append, List.length_singleton]
    rw [List.append_cons, ← hlength, List.take_left]
    exact ⟨init ++ [last], rest, rfl, numeral_of_continues hinit hlast, rfl, hlength ▸ hk⟩

/-- Scanning waits exactly while fewer bytes are there than it may look at, and all of them announce
another. -/
theorem scan_eq_needMore_iff {limit : Nat} {bs : Bytes} :
    scan limit bs = .needMore ↔ bs.length < limit ∧ ∀ b ∈ bs, continues b := by
  fun_induction scan limit bs with
  | case1 => simp
  | case2 => simp
  | case3 limit b bs hb => simp [continues_iff, Nat.not_le.mpr hb]
  | case4 limit b bs hb high n hs ih => simpa [hs, continues_iff, Nat.not_lt.mp hb] using ih
  | case5 limit b bs hb hs ih => simpa [hs, continues_iff, Nat.not_lt.mp hb] using ih
  | case6 limit b bs hb hs ih => simpa [hs, continues_iff, Nat.not_lt.mp hb] using ih

theorem scan32_eq_needMore_iff {bs : Bytes} :
    scan32 bs = .needMore ↔ bs.length < maxLength32 ∧ ∀ b ∈ bs, 128 ≤ b.toNat := by
  simp only [← continues_iff, ← scan_eq_needMore_iff, scan32]
  cases scan maxLength32 bs <;> simp [Scan.map]

/-! ## The shortest numeral -/

theorem groupCount_mono {m n : Nat} (h : m ≤ n) : groupCount m ≤ groupCount n := by
  induction n using Nat.strongRecOn generalizing m with
  | ind n ih =>
    by_cases hm : m < 128
    · rw [groupCount_of_lt hm, ← length_groups]
      exact (numeral_groups n).length_pos
    · rw [groupCount_div (Nat.not_lt.mp hm), groupCount_div (by omega : 128 ≤ n)]
      exact Nat.succ_le_succ (ih (n / 128) (by omega) (Nat.div_le_div_right h))

theorem Numeral.groupCount_le {s : Bytes} {n : Nat} (h : Numeral s n) :
    groupCount n ≤ s.length := by
  induction h with
  | last hb => rw [groupCount_of_lt hb, List.length_singleton]
  | @more b bs n hb hn ih =>
    have hlt : b.toNat < 256 := b.toNat_lt
    by_cases h0 : n = 0
    · rw [groupCount_of_lt (by omega)]
      simp
    · rw [groupCount_div (by omega), List.length_cons,
        show (b.toNat - 128 + 128 * n) / 128 = n by omega]
      exact Nat.succ_le_succ ih

/-! ## Widths -/

/-- Numbers of a width: the words that hold them, and what they are worth. -/
structure Width (ν : Type) where
  bits : Nat
  most : Nat
  most_pos : 0 < most
  most_le : most ≤ 10
  bits_le : bits ≤ 7 * most
  /-- The two's complement of a number. -/
  word : ν → UInt64
  /-- The number whose two's complement a word ends with. -/
  number : UInt64 → ν
  value : ν → Int
  word_lt : ∀ v, (word v).toNat < 2 ^ bits
  number_word : ∀ v, number (word v) = v
  word_number_le : ∀ x, (word (number x)).toNat ≤ x.toNat
  value_number : ∀ n : Nat, value (number (.ofNat n)) = (n : Int).bmod (2 ^ bits)
  value_inj : ∀ u v, value u = value v → u = v

def width32 : Width Int32 where
  bits := 32
  most := maxLength32
  most_pos := by decide
  most_le := by decide
  bits_le := by decide
  word v := v.toUInt32.toUInt64
  number x := x.toUInt32.toInt32
  value := Int32.toInt
  word_lt v := v.toUInt32.toNat_lt
  number_word v := by simp
  word_number_le x := by
    rw [UInt32.toUInt32_toInt32, UInt32.toNat_toUInt64, UInt64.toNat_toUInt32]
    exact Nat.mod_le _ _
  value_number n := by
    rw [UInt64.toUInt32_ofNat', UInt32.toInt32_ofNat']
    exact Int32.toInt_ofNat'
  value_inj u v h := Int32.toInt_inj.mp h

def width64 : Width Int64 where
  bits := 64
  most := maxLength64
  most_pos := by decide
  most_le := by decide
  bits_le := by decide
  word v := v.toUInt64
  number x := x.toInt64
  value := Int64.toInt
  word_lt v := v.toUInt64.toNat_lt
  number_word v := by simp
  word_number_le x := by simp
  value_number n := by
    rw [UInt64.toInt64_ofNat']
    exact Int64.toInt_ofNat'
  value_inj u v h := Int64.toInt_inj.mp h

/-- What coding the numbers of a width comes to. -/
structure Codes {ν : Type} (w : Width ν) (encode : ν → Bytes) (length : ν → Nat)
    (scan : Bytes → Scan ν) : Prop where
  scan_encode : ∀ v rest, scan (encode v ++ rest) = .found v (encode v).length
  length_encode : ∀ v, (encode v).length = length v
  scan_front : ∀ v front, front <+: encode v → front ≠ encode v → scan front = .needMore
  encode_shortest : ∀ v bs k, scan bs = .found v k → (encode v).length ≤ k
  found_iff : ∀ bs v k, scan bs = .found v k ↔
    k ≤ w.most ∧ EndsAt bs k ∧ w.value v = (groupSum (bs.take k) : Int).bmod (2 ^ w.bits)
  invalid_iff : ∀ bs, scan bs = .invalid ↔
    w.most ≤ bs.length ∧ ∀ b ∈ bs.take w.most, continues b
  needMore_iff : ∀ bs, scan bs = .needMore ↔ bs.length < w.most ∧ ∀ b ∈ bs, continues b
  /-- On words, no shift and no count goes wrong. -/
  scan_words : ∀ bs, (Word.scan? w.most 0 0 bs).map (Scan.map w.number) = some (scan bs)
  encode_words : ∀ v, Word.groups (w.word v) = encode v
  length_words : ∀ v, Word.count? (w.word v) = some (length v)

namespace Width

variable {ν : Type} (w : Width ν)

def scan (bs : Bytes) : Scan ν := (VarInt.scan w.most bs).map fun n => w.number (.ofNat n)

variable {w}

theorem number_eq_iff {v : ν} {n : Nat} :
    w.number (.ofNat n) = v ↔ w.value v = (n : Int).bmod (2 ^ w.bits) := by
  rw [← w.value_number n]
  constructor
  · rintro rfl
    rfl
  · exact fun h => (w.value_inj _ _ h).symm

theorem scan_found_iff {bs : Bytes} {v : ν} {k : Nat} :
    w.scan bs = .found v k ↔ ∃ n, VarInt.scan w.most bs = .found n k ∧ w.number (.ofNat n) = v := by
  unfold scan
  cases VarInt.scan w.most bs with
  | found n m =>
    simp only [Scan.map, Scan.found.injEq]
    constructor
    · rintro ⟨rfl, rfl⟩
      exact ⟨n, ⟨rfl, rfl⟩, rfl⟩
    · rintro ⟨n, ⟨rfl, rfl⟩, rfl⟩
      exact ⟨rfl, rfl⟩
  | needMore => simp [Scan.map]
  | invalid => simp [Scan.map]

theorem scan_invalid_iff {bs : Bytes} :
    w.scan bs = .invalid ↔ w.most ≤ bs.length ∧ ∀ b ∈ bs.take w.most, continues b := by
  simp only [continues_iff, ← scan_eq_invalid_iff, scan]
  cases VarInt.scan w.most bs <;> simp [Scan.map]

theorem scan_needMore_iff {bs : Bytes} :
    w.scan bs = .needMore ↔ bs.length < w.most ∧ ∀ b ∈ bs, continues b := by
  rw [← scan_eq_needMore_iff, scan]
  cases VarInt.scan w.most bs <;> simp [Scan.map]

theorem length_groups_le (v : ν) : (groups (w.word v).toNat).length ≤ w.most := by
  have hlog : (w.word v).toNat.log2 < 7 * w.most := by
    by_cases h0 : (w.word v).toNat = 0
    · rw [h0]
      exact Nat.mul_pos (by decide) w.most_pos
    · exact (Nat.log2_lt h0).mpr
        (Nat.lt_of_lt_of_le (w.word_lt v) (Nat.pow_le_pow_right (by decide) w.bits_le))
  rw [length_groups]
  have := groupCount_le hlog
  omega

/-- A coder that writes the groups of words and reads them back codes its numbers. -/
theorem codes {encode : ν → Bytes} {length : ν → Nat} {scan : Bytes → Scan ν}
    (he : ∀ v, encode v = groups (w.word v).toNat)
    (hl : ∀ v, length v = groupCount (w.word v).toNat)
    (hs : ∀ bs, scan bs = w.scan bs) : Codes w encode length scan where
  scan_encode v rest := by
    have hfound := scan_of_numeral (numeral_groups (w.word v).toNat) rest (length_groups_le v)
    rw [hs, he, scan_found_iff]
    exact ⟨_, hfound, by rw [UInt64.ofNat_toNat, w.number_word]⟩
  length_encode v := by rw [he, hl, length_groups]
  scan_front v front h hne := by
    obtain ⟨init, last, hsplit, hinit, -, -⟩ := (numeral_groups (w.word v).toNat).continues
    have hlength := congrArg List.length hsplit
    rw [List.length_append, List.length_singleton] at hlength
    have := length_groups_le (w := w) v
    rw [he, hsplit, List.prefix_concat_iff] at h
    have hfront := h.resolve_left fun heq => hne (heq.trans (hsplit ▸ (he v).symm))
    have := hfront.length_le
    rw [hs, scan_needMore_iff]
    exact ⟨by omega, fun b hb => hinit b (hfront.subset hb)⟩
  encode_shortest v bs k h := by
    rw [hs, scan_found_iff] at h
    obtain ⟨n, h, rfl⟩ := h
    obtain ⟨s, rest, rfl, hn, rfl, -⟩ := scan_eq_found_iff.mp h
    have hle : (w.word (w.number (.ofNat n))).toNat ≤ n :=
      Nat.le_trans (w.word_number_le _) (UInt64.toNat_ofNat' ▸ Nat.mod_le _ _)
    rw [he, length_groups]
    exact Nat.le_trans (groupCount_mono hle) hn.groupCount_le
  found_iff bs v k := by
    rw [hs, scan_found_iff]
    simp only [scan_eq_found_iff_endsAt, number_eq_iff]
    constructor
    · rintro ⟨n, ⟨hk, hends, rfl⟩, hv⟩
      exact ⟨hk, hends, hv⟩
    · rintro ⟨hk, hends, hv⟩
      exact ⟨_, ⟨hk, hends, rfl⟩, hv⟩
  invalid_iff bs := by rw [hs, scan_invalid_iff]
  needMore_iff bs := by rw [hs, scan_needMore_iff]
  scan_words bs := by
    rw [Word.scan?_eq w.most_le, hs, Width.scan]
    cases VarInt.scan w.most bs <;> rfl
  encode_words v := by rw [Word.groups_eq, he]
  length_words v := by rw [Word.count?_eq, hl]

end Width

/-- Numbers of 32 bits in up to five groups, and of 64 bits in up to ten, are coded as `Codes`
says. -/
theorem codes_exactly :
    Codes width32 encode32 length32 scan32 ∧ Codes width64 encode64 length64 scan64 := by
  refine ⟨Width.codes (fun v => rfl) (fun v => rfl) fun bs => ?_,
    Width.codes (fun v => rfl) (fun v => rfl) fun bs => ?_⟩
  · simp only [scan32, Width.scan, width32, UInt64.toUInt32_ofNat', UInt32.toInt32_ofNat']
  · simp only [scan64, Width.scan, width64, UInt64.toInt64_ofNat']

/-- What the last group holds beyond the width is lost. -/
example : scan32 [255, 255, 255, 255, 127, 9] = .found (-1) 5 := by decide

end PacketWire.VarInt
