import PacketWire.Codec.Encode
import PacketWire.Proofs.Codec.Grammar

/-!
# Wrapping

`wrap` is the frame body that carries a packet text, and every encoder appends the frame of the
wrapped text: a packet is framed as its text in one piece would be. Where the compressor's work
can be undone, what is wrapped is carried in the sense of the grammar.
-/

namespace PacketWire

open VarInt

namespace Outgoing

theorem length_body (p : Outgoing) : p.body.length = p.bodyLength := by
  simp [body, bodyLength, length_encode32]

theorem body_ne_nil (p : Outgoing) : p.body ≠ [] := by
  have := (numeral32_encode32 p.id).length_pos
  intro h
  simp only [body, List.append_eq_nil_iff] at h
  simp [h.1] at this

theorem contentOf_body (p : Outgoing) :
    Packet.contentOf p.body = .ok { id := p.id, payload := p.payload, body := p.body } :=
  Packet.contentOf_eq_ok_iff.mpr ⟨rfl, encode32 p.id, rfl, numeral32_encode32 p.id⟩

end Outgoing

/-- Whether packing a text can be undone: inflating what was packed into a buffer of the text's
length gives the text. -/
def Compression.Compressor.Restores (z : Compression.Compressor) (text : Bytes) : Prop :=
  ∀ packed, z.compress text = some packed → z.inflate packed text.length = .done text

instance (z : Compression.Compressor) (text : Bytes) : Decidable (z.Restores text) :=
  match h : z.compress text with
  | none => isTrue fun _ hp => by simp [h] at hp
  | some packed =>
    decidable_of_iff (z.inflate packed text.length = .done text)
      ⟨fun hi _ hp => by rw [h] at hp; cases hp; exact hi, fun hr => hr packed h⟩

namespace Codec

variable {c : Codec}

theorem encode_lengthBytes (frame : Bytes) :
    lengthBytes frame.length ++ frame = Frame.encode frame := rfl

/-- The frame body for a text, and whether it is compressed. -/
def wrap (c : Codec) (body : Bytes) : Except WireError (Bool × Bytes) :=
  if c.threshold < 0 then .ok (false, body)
  else if body.length < c.threshold.toInt.toNat then .ok (false, 0 :: body)
  else if c.maxUncompressed < body.length then .error (.oversizedPacket body.length)
  else
    match c.compressor.compress body with
    | none => .error .compressionFailure
    | some packed => .ok (true, lengthBytes body.length ++ packed)

theorem encodeBody_eq {body : Bytes} (hne : body ≠ []) (out : Bytes) :
    c.encodeBody body out =
      match c.wrap body with
      | .error e => (.error e, out)
      | .ok (z, frame) =>
        if c.maxFrame < frame.length then (.error (.oversizedPacket frame.length), out)
        else (.ok z, out ++ Frame.encode frame) := by
  have he : body.isEmpty = false := by simpa using hne
  simp only [encodeBody, wrap, he, checkFrame]
  split
  · contradiction
  · split
    · simp only
      split <;> split <;> simp_all [← encode_lengthBytes]
    · split
      · simp only [List.length_cons]
        split <;> split <;> simp_all [← encode_lengthBytes]
      · split
        · rfl
        · cases c.compressor.compress body with
          | none => rfl
          | some packed =>
            have hl : (lengthBytes body.length ++ packed).length =
                length32 (Int32.ofNat body.length) + packed.length := by
              simp [lengthBytes, length_encode32]
            simp only [hl]
            split <;> split <;> simp_all [← encode_lengthBytes]

/-- Writing a packet in parts comes to framing its text. -/
theorem encodeParts_eq (c : Codec) (p : Outgoing) (out : Bytes) :
    c.encodeParts p out = c.encodeBody p.body out := by
  rw [encodeParts, ← p.length_body]
  split
  · rename_i h
    rw [encodeBody_eq p.body_ne_nil]
    by_cases ht : c.threshold < 0
    · simp only [wrap, ht, if_true, checkFrame, List.length_nil, Nat.add_zero]
      by_cases hm : c.maxFrame < p.body.length
      · simp only [hm, if_true]
      · simp only [hm, if_false]
        simp [← encode_lengthBytes, Outgoing.body]
    · have hl := h.resolve_left ht
      simp only [wrap, ht, hl, if_true, if_false, checkFrame, List.length_cons, List.length_nil,
        Nat.zero_add]
      by_cases hm : c.maxFrame < p.body.length + 1
      · simp only [hm, if_true]
      · simp only [hm, if_false]
        simp [← encode_lengthBytes, Outgoing.body]
  · rfl

theorem putItem_eq (c : Codec) (out : Bytes) (r : Reserves) (x : Item) :
    ((c.putItem out r x).result, (c.putItem out r x).out) = c.encodeBody x.body out := by
  have h (n : Nat) (v : Except WireError Bool × Bytes) :
      ((errorCounted (sent n r v)).result, (errorCounted (sent n r v)).out) = v := by
    obtain ⟨_ | _, _⟩ := v <;> rfl
  cases x with
  | packet p => simp only [putItem, put, encodePacket, h, encodeParts_eq, Item.body]
  | raw body => simp only [putItem, putRaw, h, Item.body]

theorem pool_putItem (c : Codec) (out : Bytes) (r : Reserves) (x : Item) :
    (c.putItem out r x).reserves.pool = r.pool := by
  have h (n : Nat) (v : Except WireError Bool × Bytes) :
      (errorCounted (sent n r v)).reserves.pool = r.pool := by
    obtain ⟨_ | _, _⟩ := v <;> rfl
  cases x with
  | packet p => exact h p.bodyLength _
  | raw body => exact h body.length _

theorem carries_of_wrap {body frame : Bytes} {z : Bool} (hne : body ≠ [])
    (hm : c.maxUncompressed ≤ maxValue) (hz : c.compressor.Restores body)
    (h : c.wrap body = .ok (z, frame)) : Carries c frame body ∧ 1 ≤ frame.length := by
  have hpos : 1 ≤ body.length := List.length_pos_iff.mpr hne
  unfold wrap at h
  split at h
  · rename_i ht
    cases h
    exact ⟨.plain ht, hpos⟩
  · rename_i ht
    split at h
    · cases h
      have h0 : Numeral32 [0] 0 := ⟨0, .last (b := 0) (by decide), by decide, rfl⟩
      exact ⟨.marked (s := [0]) ht h0, by simp⟩
    · rename_i hl
      split at h
      · cases h
      · rename_i hs
        split at h
        · cases h
        · rename_i packed hp
          cases h
          have hv : (Int32.ofNat body.length).toInt = body.length :=
            Int32.toInt_ofNat_of_lt (by simp only [maxValue] at hm; omega)
          have hn := numeral32_encode32 (Int32.ofNat body.length)
          have := hn.length_pos
          refine ⟨.packed ht hn ⟨?_, ?_⟩ hv (hz packed hp), ?_⟩
          · omega
          · omega
          · simp only [lengthBytes, List.length_append]; omega

/-- What an encoder appends is a frame whose body carries the text. -/
theorem frame_of_putItem {out : Bytes} {r : Reserves} {x : Item} (hne : x.body ≠ [])
    (hm : c.maxUncompressed ≤ maxValue) (hz : c.compressor.Restores x.body)
    (h : (c.putItem out r x).result.isOk) :
    ∃ frame, (c.putItem out r x).out = out ++ Frame.encode frame ∧ Carries c frame x.body ∧
      1 ≤ frame.length ∧ frame.length ≤ c.maxFrame := by
  have hp := putItem_eq c out r x
  rw [encodeBody_eq hne] at hp
  cases hw : c.wrap x.body with
  | error e =>
    simp only [hw, Prod.mk.injEq] at hp
    simp [hp.1, Except.isOk, Except.toBool] at h
  | ok v =>
    obtain ⟨z, frame⟩ := v
    simp only [hw] at hp
    split at hp
    · simp only [Prod.mk.injEq] at hp
      simp [hp.1, Except.isOk, Except.toBool] at h
    · rename_i hl
      obtain ⟨hc, h1⟩ := carries_of_wrap hne hm hz hw
      exact ⟨frame, by simpa using congrArg Prod.snd hp, hc, h1, Nat.not_lt.mp hl⟩

end Codec

end PacketWire
