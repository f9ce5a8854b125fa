import PacketWire.Frame
import PacketWire.Proofs.VarInt.Numeral

/-!
# The first frame

`take` finds a frame exactly when the bytes start with one: a numeral of an announced length, and
that many bytes (`Whole`), and fails exactly when no frame can come any more (`Refused`). What it
says of the front of a byte string it says of every byte string with that front. Frames that
`encode` writes are found again.
-/

namespace PacketWire.Frame

open VarInt

theorem checkLength_eq_ok_iff {max n : Nat} {v : Int32} :
    checkLength max v = .ok n ↔ v.toInt = n ∧ 1 ≤ n ∧ n ≤ max := by
  have h0 : v < 0 ↔ v.toInt < 0 := Int32.lt_iff_toInt_lt
  have h1 : v = 0 ↔ v.toInt = 0 := by rw [← Int32.toInt_inj]; rfl
  simp only [checkLength, h0, h1]
  split
  · simp only [reduceCtorEq, false_iff]; omega
  · split
    · simp only [reduceCtorEq, false_iff]; omega
    · split
      · simp only [reduceCtorEq, false_iff]; omega
      · simp only [Except.ok.injEq]; omega

theorem checkLength_ofNat {max n : Nat} (h1 : 1 ≤ n) (hm : n ≤ max) (hv : n ≤ maxValue) :
    checkLength max (Int32.ofNat n) = .ok n := by
  rw [checkLength_eq_ok_iff, Int32.toInt_ofNat_of_lt (by simp only [maxValue] at hv; omega)]
  exact ⟨rfl, h1, hm⟩

theorem checkLength_eq_error_iff {max : Nat} {v : Int32} {e : WireError} :
    checkLength max v = .error e ↔
      v.toInt < 0 ∧ e = .invalidFrame .negativeLength ∨
      v.toInt = 0 ∧ e = .invalidFrame .zeroLength ∨
      ∃ n : Nat, v.toInt = n ∧ max < n ∧ e = .oversizedPacket n := by
  have h0 : v < 0 ↔ v.toInt < 0 := Int32.lt_iff_toInt_lt
  have h1 : v = 0 ↔ v.toInt = 0 := by rw [← Int32.toInt_inj]; rfl
  simp only [checkLength, h0, h1]
  constructor
  · intro h
    split at h
    · cases h
      exact .inl ⟨‹_›, rfl⟩
    · split at h
      · cases h
        exact .inr (.inl ⟨‹_›, rfl⟩)
      · split at h <;> cases h
        exact .inr (.inr ⟨v.toInt.toNat, by omega, ‹_›, rfl⟩)
  · rintro (⟨hv, rfl⟩ | ⟨hv, rfl⟩ | ⟨n, hv, hn, rfl⟩)
    · rw [if_pos hv]
    · rw [if_neg (by omega), if_pos hv]
    · rw [if_neg (by omega), if_neg (by omega), if_pos (by omega), hv, Int.toNat_natCast]

/-! ## Frames at the front -/

theorem take_of_frame {max : Nat} {s body : Bytes} {v : Int32} (hs : Numeral32 s v)
    (hl : checkLength max v = .ok body.length) (rest : Bytes) :
    take max (s ++ body ++ rest) = .ok (some (body, rest)) := by
  simp [take, List.append_assoc, scan32_of_numeral hs, hl]

/-- Taking finds a frame exactly when there is one at the front. -/
theorem take_eq_some_iff {max : Nat} {bs body rest : Bytes} :
    take max bs = .ok (some (body, rest)) ↔
      ∃ s v, bs = s ++ body ++ rest ∧ Numeral32 s v ∧ checkLength max v = .ok body.length := by
  constructor
  · intro h
    unfold take at h
    split at h
    · cases h
    · cases h
    · rename_i v used hscan
      obtain ⟨s, tail, rfl, hs, rfl⟩ := scan32_eq_found_iff.mp hscan
      split at h
      · cases h
      · rename_i n hn
        simp only [List.drop_left] at h
        split at h
        · cases h
        · rename_i hlen
          cases h
          have hle : (tail.take n).length = n := by
            have := List.length_take_le n tail
            omega
          exact ⟨s, v, by simp, hs, by rw [hle, hn]⟩
  · rintro ⟨s, v, rfl, hs, hl⟩
    exact take_of_frame hs hl rest

theorem take_behind_numeral {max n : Nat} {s tail body rest : Bytes} {v : Int32}
    (hs : Numeral32 s v) (hl : checkLength max v = .ok n)
    (h : take max (s ++ tail) = .ok (some (body, rest))) :
    tail = body ++ rest ∧ body.length = n := by
  simp only [take, scan32_of_numeral hs, hl, List.drop_left] at h
  split at h <;> cases h
  have := List.length_take_le n tail
  exact ⟨(List.take_append_drop n tail).symm, by omega⟩

theorem length_rest_lt {max : Nat} {bs body rest : Bytes}
    (h : take max bs = .ok (some (body, rest))) : rest.length < bs.length := by
  obtain ⟨s, v, rfl, hs, -⟩ := take_eq_some_iff.mp h
  have := hs.length_pos
  simp only [List.length_append]
  omega

theorem take_nil (max : Nat) : take max [] = .ok none := rfl

theorem take_encode {max : Nat} {body : Bytes} (h1 : 1 ≤ body.length) (hm : body.length ≤ max)
    (hv : body.length ≤ maxValue) (rest : Bytes) :
    take max (encode body ++ rest) = .ok (some (body, rest)) :=
  take_of_frame (numeral32_encode32 _) (checkLength_ofNat h1 hm hv) rest

/-! ## All that taking can come to -/

/-- A whole frame lies at the front of `bs`: a length that `max` allows, and a body that long. -/
def Whole (max : Nat) (bs body rest : Bytes) : Prop :=
  ∃ s v, bs = s ++ body ++ rest ∧ Numeral32 s v ∧ v.toInt = body.length ∧ 1 ≤ body.length ∧
    body.length ≤ max

/-- Why the front of a byte string is not, and never becomes, a frame. -/
inductive Refused (max : Nat) (bs : Bytes) : WireError → Prop where
  | overlong : maxLength32 ≤ bs.length → (∀ b ∈ bs.take maxLength32, 128 ≤ b.toNat) →
      Refused max bs .malformedVarInt
  | negative {s rest : Bytes} {v : Int32} : bs = s ++ rest → Numeral32 s v → v.toInt < 0 →
      Refused max bs (.invalidFrame .negativeLength)
  | zero {s rest : Bytes} {v : Int32} : bs = s ++ rest → Numeral32 s v → v.toInt = 0 →
      Refused max bs (.invalidFrame .zeroLength)
  | oversized {s rest : Bytes} {v : Int32} {n : Nat} : bs = s ++ rest → Numeral32 s v →
      v.toInt = n → max < n → Refused max bs (.oversizedPacket n)

theorem take_eq_some_iff_whole {max : Nat} {bs body rest : Bytes} :
    take max bs = .ok (some (body, rest)) ↔ Whole max bs body rest := by
  rw [take_eq_some_iff]
  simp only [checkLength_eq_ok_iff, Whole]

/-- A numeral that is refused as a length is so whatever lies behind it. -/
theorem take_of_numeral {max : Nat} {s : Bytes} {v : Int32} {e : WireError} (hs : Numeral32 s v)
    (hl : checkLength max v = .error e) (rest : Bytes) : take max (s ++ rest) = .error e := by
  simp only [take, scan32_of_numeral hs, hl]

theorem take_eq_error_iff {max : Nat} {bs : Bytes} {e : WireError} :
    take max bs = .error e ↔ Refused max bs e := by
  constructor
  · intro h
    unfold take at h
    split at h
    · cases h
    · rename_i hscan
      cases h
      obtain ⟨hlen, hall⟩ := scan32_eq_invalid_iff.mp hscan
      exact .overlong hlen hall
    · rename_i v used hscan
      obtain ⟨s, rest, happ, hs, -⟩ := scan32_eq_found_iff.mp hscan
      split at h
      · rename_i e' hl
        cases h
        obtain ⟨hv, rfl⟩ | ⟨hv, rfl⟩ | ⟨n, hv, hn, rfl⟩ := checkLength_eq_error_iff.mp hl
        · exact .negative happ hs hv
        · exact .zero happ hs hv
        · exact .oversized happ hs hv hn
      · simp only at h
        split at h <;> cases h
  · intro h
    cases h with
    | overlong hlen hall => simp only [take, scan32_eq_invalid_iff.mpr ⟨hlen, hall⟩]
    | negative happ hs hv =>
      rw [happ]
      exact take_of_numeral hs (checkLength_eq_error_iff.mpr (.inl ⟨hv, rfl⟩)) _
    | zero happ hs hv =>
      rw [happ]
      exact take_of_numeral hs (checkLength_eq_error_iff.mpr (.inr (.inl ⟨hv, rfl⟩))) _
    | oversized happ hs hv hn =>
      rw [happ]
      exact take_of_numeral hs (checkLength_eq_error_iff.mpr (.inr (.inr ⟨_, hv, hn, rfl⟩))) _

theorem takeAll_one (max : Nat) (bs : Bytes) :
    takeAll max 1 bs =
      match take max bs with
      | .ok none => (([], none), bs)
      | .error e => (([], some e), bs)
      | .ok (some (body, rest)) => (([body], none), rest) := rfl

/-! ## More bytes behind -/

theorem take_append_of_some {max : Nat} {bs body rest : Bytes}
    (h : take max bs = .ok (some (body, rest))) (more : Bytes) :
    take max (bs ++ more) = .ok (some (body, rest ++ more)) := by
  obtain ⟨s, v, rfl, hs, hl⟩ := take_eq_some_iff.mp h
  rw [List.append_assoc]
  exact take_of_frame hs hl _

theorem take_append_of_error {max : Nat} {bs : Bytes} {e : WireError}
    (h : take max bs = .error e) (more : Bytes) : take max (bs ++ more) = .error e := by
  have hneed : scan32 bs ≠ .needMore := by
    intro hs
    simp [take, hs] at h
  unfold take at h ⊢
  rw [scan32_append more hneed]
  split at h
  · cases h
  · assumption
  · rename_i v used hscan
    split at h
    · simp_all
    · simp only at h
      split at h <;> cases h

end PacketWire.Frame
