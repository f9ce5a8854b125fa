import PacketWire.VarInt.Reading
import PacketWire.Proofs.VarInt.Numeral

/-!
# Numbers read byte by byte

A `NumberRead` sees each byte once and keeps only a sum. `NumberRead.scan` is its verdict on the
bytes still to come, and `Begun n p` says that `n` is what reading `p` leaves: the verdict on `p`
and all that follows is the one that `n` gives on what follows.
-/

namespace PacketWire.VarInt

/-- The verdict on `n` bytes more at the front. -/
def Scan.behind {α : Type} (n : Nat) : Scan α → Scan α
  | .found v k => .found v (n + k)
  | .needMore => .needMore
  | .invalid => .invalid

theorem Scan.behind_behind {α : Type} (m n : Nat) (x : Scan α) :
    (x.behind n).behind m = x.behind (m + n) := by
  cases x with
  | found v k => simp only [behind, Nat.add_assoc]
  | needMore => rfl
  | invalid => rfl

namespace NumberRead

variable {n : NumberRead} {p bs : Bytes} {b : UInt8}

/-- What the bytes to come make of the number. -/
def scan (n : NumberRead) (bs : Bytes) : Scan Int32 :=
  (VarInt.scan (maxLength32 - n.groups) bs).map fun high =>
    Int32.ofNat (n.value + high <<< (7 * n.groups))

theorem scan_start (bs : Bytes) : ({} : NumberRead).scan bs = scan32 bs := by
  simp [scan, scan32]

theorem scan_of_full (h : maxLength32 ≤ n.groups) (bs : Bytes) : n.scan bs = .invalid := by
  simp [scan, Nat.sub_eq_zero_of_le h, VarInt.scan, Scan.map]

theorem scan_nil (h : n.groups < maxLength32) : n.scan [] = .needMore := by
  obtain ⟨k, hk⟩ : ∃ k, maxLength32 - n.groups = k + 1 := ⟨maxLength32 - n.groups - 1, by omega⟩
  simp [scan, hk, VarInt.scan, Scan.map]

theorem scan_last (h : n.groups < maxLength32) (hb : b.toNat < 128) (bs : Bytes) :
    n.scan (b :: bs) = .found (Int32.ofNat (n.add b).value) 1 := by
  obtain ⟨k, hk⟩ : ∃ k, maxLength32 - n.groups = k + 1 := ⟨maxLength32 - n.groups - 1, by omega⟩
  simp [scan, hk, VarInt.scan, hb, Scan.map, add, Nat.mod_eq_of_lt hb]

/-- The groups above one more byte weigh as much as that byte says. -/
theorem value_add (n : NumberRead) (hb : 128 ≤ b.toNat) (high : Nat) :
    (n.add b).value + high <<< (7 * (n.add b).groups) =
      n.value + (b.toNat - 128 + 128 * high) <<< (7 * n.groups) := by
  have hlt : b.toNat < 256 := b.toNat_lt
  have hmod : b.toNat % 128 = b.toNat - 128 := by omega
  have hpow : 2 ^ (7 * (n.groups + 1)) = 128 * 2 ^ (7 * n.groups) := by
    rw [Nat.mul_add, Nat.pow_add, Nat.mul_comm]
  simp only [add, Nat.shiftLeft_eq, hmod, hpow, Nat.add_mul]
  rw [Nat.mul_left_comm high 128, Nat.mul_assoc 128 high, Nat.add_assoc]

theorem scan_more (h : n.groups < maxLength32) (hb : 128 ≤ b.toNat) (bs : Bytes) :
    n.scan (b :: bs) = ((n.add b).scan bs).behind 1 := by
  have hk : maxLength32 - n.groups = maxLength32 - (n.add b).groups + 1 := by
    simp only [add]
    omega
  rw [scan, hk, VarInt.scan, if_neg (Nat.not_lt.mpr hb), scan]
  cases VarInt.scan (maxLength32 - (n.add b).groups) bs with
  | found high k => simp only [Scan.map, Scan.behind, value_add n hb, Nat.add_comm k 1]
  | needMore => rfl
  | invalid => rfl

/-- `n` is what is left of reading `p`, which is no whole number yet. -/
structure Begun (n : NumberRead) (p : Bytes) : Prop where
  groups : n.groups = p.length
  scan : ∀ bs, scan32 (p ++ bs) = (n.scan bs).behind p.length

theorem Begun.start : Begun {} [] where
  groups := rfl
  scan bs := by
    rw [scan_start, List.nil_append]
    cases scan32 bs with
    | found v k => simp only [Scan.behind, List.length_nil, Nat.zero_add]
    | needMore => rfl
    | invalid => rfl

theorem Begun.add (hn : Begun n p) (h : n.groups < maxLength32) (hb : 128 ≤ b.toNat) :
    Begun (n.add b) (p ++ [b]) where
  groups := by simp [NumberRead.add, hn.groups]
  scan bs := by
    rw [List.append_assoc, List.singleton_append, hn.scan, scan_more h hb, Scan.behind_behind,
      List.length_append, List.length_singleton]

theorem Begun.scan_eq_needMore (hn : Begun n p) (h : n.groups < maxLength32) :
    scan32 p = .needMore := by
  have hs := hn.scan []
  rwa [List.append_nil, scan_nil h] at hs

theorem Begun.numeral (hn : Begun n p) (h : n.groups < maxLength32) (hb : b.toNat < 128) :
    Numeral32 (p ++ [b]) (Int32.ofNat (n.add b).value) := by
  have hs := hn.scan [b]
  rw [scan_last h hb] at hs
  obtain ⟨s, rest, happ, hnum, hlen⟩ := scan32_eq_found_iff.mp hs
  have := congrArg List.length happ
  simp only [List.length_append, List.length_singleton] at this
  have hrest : rest = [] := List.eq_nil_of_length_eq_zero (by omega)
  rw [happ, hrest, List.append_nil]
  exact hnum

variable {σ : Type} [Source σ] {s s' : σ}

theorem poll_of_full (h : maxLength32 ≤ n.groups) :
    n.poll s = (.done (.error .malformedVarInt), s) := by
  rw [poll, if_pos h]

theorem poll_congr (hs : readByte s = readByte s') (h : n.groups < maxLength32) :
    n.poll s = n.poll s' := by
  rw [poll, poll, hs]
  simp [Nat.not_le.mpr h]

theorem poll_of_pause (h : n.groups < maxLength32) (hs : readByte s = (.pending, s')) :
    n.poll s = (.waiting n, s') := by
  rw [poll, if_neg (by omega), hs]

theorem poll_of_error {e : IoError} (h : n.groups < maxLength32)
    (hs : readByte s = (.ready (.error e), s')) : n.poll s = (.done (n.failed e), s') := by
  rw [poll, if_neg (by omega), hs]

theorem poll_of_last (h : n.groups < maxLength32) (hs : readByte s = (.ready (.ok b), s'))
    (hb : b.toNat < 128) :
    n.poll s = (.done (.ok (some (Int32.ofNat (n.add b).value))), s') := by
  rw [poll, if_neg (by omega), hs]
  exact if_pos hb

theorem poll_of_more (h : n.groups < maxLength32) (hs : readByte s = (.ready (.ok b), s'))
    (hb : 128 ≤ b.toNat) : n.poll s = (n.add b).poll s' := by
  rw [poll, if_neg (by omega), hs]
  exact if_neg (by omega)

end NumberRead

end PacketWire.VarInt
