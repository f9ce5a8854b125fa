import PacketWire.Proofs.Codec.Decode

/-!
# What decoding refuses a frame with

An error that says that bytes are no frame, or that there is no buffer for one, is a refusal
(`WireError.refuses`). Decoding fails with refusals only: it never speaks of the transport, or of
being cancelled.
-/

namespace PacketWire

def WireError.refuses : WireError → Bool
  | .malformedVarInt | .invalidFrame _ | .oversizedPacket _ | .decompression _ | .poolExhausted _ =>
    true
  | _ => false

theorem WireError.ne_cancelled_of_refuses {e : WireError} (h : e.refuses) : e ≠ .cancelled := by
  rintro rfl
  cases h

variable {e : WireError}

theorem Frame.refuses_of_checkLength {most : Nat} {length : Int32}
    (h : Frame.checkLength most length = .error e) : e.refuses := by
  unfold Frame.checkLength at h
  split at h
  · cases h
    rfl
  · split at h
    · cases h
      rfl
    · simp only at h
      split at h <;> cases h
      rfl

theorem Frame.refuses_of_take {most : Nat} {bs : Bytes} (h : Frame.take most bs = .error e) :
    e.refuses := by
  unfold Frame.take at h
  split at h
  · cases h
  · cases h
    rfl
  · split at h
    · rename_i hl
      cases h
      exact refuses_of_checkLength hl
    · simp only at h
      split at h <;> cases h

theorem Packet.refuses_of_parse {storage : Storage} {start : Nat}
    (h : Packet.parse storage start = .error e) : e.refuses := by
  unfold Packet.parse at h
  split at h <;> cases h <;> rfl

theorem Packet.refuses_of_ofPooled {r : Reserves} {b : Buffer} {start : Nat}
    (h : (Packet.ofPooled r b start).1 = .error e) : e.refuses := by
  unfold Packet.ofPooled at h
  split at h
  · cases h
  · rename_i hp
    cases h
    exact refuses_of_parse hp

theorem Reserves.refuses_of_acquire {r r' : Reserves} {n : Nat}
    (h : r.acquire n = (.error e, r')) : e.refuses := by
  obtain ⟨m, rfl⟩ := error_of_acquire h
  rfl

namespace Codec

variable {c : Codec} {body : Bytes} {r : Reserves}

theorem refuses_of_layout (h : c.layout body = .error e) : e.refuses := by
  unfold layout at h
  split at h
  · cases h
  · split at h
    · cases h
      rfl
    · cases h
      rfl
    · split at h
      · cases h
        rfl
      · split at h
        · cases h
        · split at h
          · cases h
            rfl
          · simp only at h
            split at h <;> cases h
            rfl

theorem refuses_of_inflate {packed : Bytes} {size : Nat}
    (h : (c.inflate packed size r).1 = .error e) : e.refuses := by
  unfold inflate at h
  split at h
  · rename_i ha
    cases h
    exact Reserves.refuses_of_acquire ha
  · simp only at h
    split at h
    · split at h
      · exact Packet.refuses_of_ofPooled h
      · cases h
        rfl
    · cases h
      rfl
    · cases h
      rfl

theorem refuses_of_decodeBody (h : (c.decodeBody body r).1 = .error e) : e.refuses := by
  unfold decodeBody at h
  split at h
  · rename_i hl
    cases h
    exact refuses_of_layout hl
  · rw [counted_fst] at h
    exact Packet.refuses_of_parse h
  · rw [counted_fst] at h
    exact refuses_of_inflate h

theorem refuses_of_decodePooled {frame : Buffer} (h : (c.decodePooled frame r).1 = .error e) :
    e.refuses := by
  unfold decodePooled at h
  split at h
  · rename_i hl
    cases h
    exact refuses_of_layout hl
  · rw [counted_fst] at h
    exact Packet.refuses_of_ofPooled h
  · rw [counted_fst] at h
    exact refuses_of_inflate h

theorem refuses_of_next {bs : Bytes} (h : (c.next bs r).result = .error e) : e.refuses := by
  unfold next at h
  split at h
  · rename_i ht
    cases h
    exact Frame.refuses_of_take ht
  · cases h
  · split at h
    · cases h
    · rename_i hd
      cases h
      exact refuses_of_decodeBody (congrArg Prod.fst hd)

end Codec

end PacketWire
