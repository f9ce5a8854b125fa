import PacketWire.Endpoint.Basic

/-!
# Writing a byte string to the end

`pushAll` writes as long as the sink takes something, and says what is left when it stops.
`writeAll` also tries again when it was only disturbed.
-/

namespace PacketWire

variable {κ : Type} [Sink κ]

/-- Writes until nothing is left. A sink that takes none of the bytes has failed. -/
def pushAll (bs : Bytes) (k : κ) : Poll (Except IoError Unit) × Bytes × κ :=
  if bs.isEmpty then (.ready (.ok ()), bs, k)
  else
    match Sink.write bs k with
    | (.pending, k) => (.pending, bs, k)
    | (.ready (.error e), k) => (.ready (.error e), bs, k)
    | (.ready (.ok 0), k) => (.ready (.error (.ofKind .writeZero)), bs, k)
    | (.ready (.ok (n + 1)), k) => pushAll (bs.drop (n + 1)) k
termination_by bs.length
decreasing_by
  have : bs.length ≠ 0 := by simp_all
  simp only [List.length_drop]
  omega

theorem patience_pushAll_le (bs : Bytes) (k : κ) :
    Sink.patience (pushAll bs k).2.2 ≤ Sink.patience k := by
  fun_induction pushAll bs k with
  | case1 => exact Nat.le_refl _
  | case2 bs k h k' hw => exact Sink.patience_le hw
  | case3 bs k h e k' hw => exact Sink.patience_le hw
  | case4 bs k h k' hw => exact Sink.patience_le hw
  | case5 bs k h n k' hw ih => exact Nat.le_trans ih (Sink.patience_le hw)

theorem patience_pushAll_lt (bs : Bytes) (k : κ) {e : IoError} {rest : Bytes} {k' : κ}
    (h : pushAll bs k = (.ready (.error e), rest, k')) (hk : e.kind = .interrupted) :
    Sink.patience k' < Sink.patience k := by
  fun_induction pushAll bs k with
  | case1 => simp at h
  | case2 => simp at h
  | case3 bs k hb e' k'' hw =>
    simp only [Prod.mk.injEq, Poll.ready.injEq, Except.error.injEq] at h
    obtain ⟨rfl, -, rfl⟩ := h
    exact Sink.patience_lt_of_interrupted hw hk
  | case4 bs k hb k'' hw =>
    simp only [Prod.mk.injEq, Poll.ready.injEq, Except.error.injEq] at h
    obtain ⟨rfl, -, -⟩ := h
    simp [IoError.ofKind] at hk
  | case5 bs k hb n k'' hw ih => exact Nat.lt_of_lt_of_le (ih h) (Sink.patience_le hw)

/-- Writes all of `bs`. Disturbances are passed over. -/
def writeAll (bs : Bytes) (k : κ) : Progress Bytes (Except IoError Unit) × κ :=
  match _h : pushAll bs k with
  | (.pending, rest, k') => (.waiting rest, k')
  | (.ready (.ok ()), _, k') => (.done (.ok ()), k')
  | (.ready (.error e), rest, k') =>
    if _hk : e.kind = .interrupted then writeAll rest k' else (.done (.error e), k')
termination_by Sink.patience k
decreasing_by exact patience_pushAll_lt bs k _h _hk

end PacketWire
