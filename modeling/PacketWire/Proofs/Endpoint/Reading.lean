import PacketWire.Endpoint.Basic

/-!
# One answer of a source

What each answer of a source makes of reading one byte, and of reading a known number of bytes.
-/

namespace PacketWire

variable {σ : Type} [Source σ] {s s' : σ} {b : UInt8} {bs : Bytes} {e : IoError}

theorem readByte_of_pause (h : Source.read 1 s = (.pending, s')) :
    readByte s = (.pending, s') := by
  rw [readByte]
  split <;> simp_all

theorem readByte_of_disturbance (h : Source.read 1 s = (.ready (.error e), s'))
    (he : e.kind = .interrupted) : readByte s = readByte s' := by
  rw [readByte]
  split <;> simp_all

theorem readByte_of_failure (h : Source.read 1 s = (.ready (.error e), s'))
    (he : e.kind ≠ .interrupted) : readByte s = (.ready (.error e), s') := by
  rw [readByte]
  split <;> simp_all

theorem readByte_of_end (h : Source.read 1 s = (.ready (.ok []), s')) :
    readByte s = (.ready (.error (.ofKind .unexpectedEof)), s') := by
  rw [readByte]
  split <;> simp_all

theorem readByte_of_data (h : Source.read 1 s = (.ready (.ok (b :: bs)), s')) :
    bs = [] ∧ readByte s = (.ready (.ok b), s') := by
  have hl : bs.length + 1 ≤ 1 := Source.length_le h
  refine ⟨List.eq_nil_of_length_eq_zero (by omega), ?_⟩
  rw [readByte]
  split <;> simp_all

variable {want : Nat} {got : Bytes}

theorem readExact_of_enough (h : want ≤ got.length) :
    readExact want got s = (.done (.ok got), s) := by
  rw [readExact, if_pos h]

theorem readExact_of_pause (h : got.length < want)
    (hs : Source.read (want - got.length) s = (.pending, s')) :
    readExact want got s = (.waiting got, s') := by
  rw [readExact, if_neg (by omega)]
  split <;> simp_all

theorem readExact_of_disturbance (h : got.length < want)
    (hs : Source.read (want - got.length) s = (.ready (.error e), s'))
    (he : e.kind = .interrupted) : readExact want got s = readExact want got s' := by
  rw [readExact, if_neg (by omega)]
  split <;> simp_all

theorem readExact_of_failure (h : got.length < want)
    (hs : Source.read (want - got.length) s = (.ready (.error e), s'))
    (he : e.kind ≠ .interrupted) : readExact want got s = (.done (.error e), s') := by
  rw [readExact, if_neg (by omega)]
  split <;> simp_all

theorem readExact_of_end (h : got.length < want)
    (hs : Source.read (want - got.length) s = (.ready (.ok []), s')) :
    readExact want got s = (.done (.error (.ofKind .unexpectedEof)), s') := by
  rw [readExact, if_neg (by omega)]
  split <;> simp_all

theorem readExact_of_data (h : got.length < want)
    (hs : Source.read (want - got.length) s = (.ready (.ok (b :: bs)), s')) :
    readExact want got s = readExact want (got ++ b :: bs) s' := by
  rw [readExact, if_neg (by omega)]
  split <;> simp_all

end PacketWire
