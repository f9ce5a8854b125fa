import PacketWire.Proofs.Codec.Decode

/-!
# The grammar of frame bodies

`Carries c body text` says how a frame body carries the bytes of a packet under the codec `c`: as
they are, behind a size of zero, or compressed behind their size. Decoding accepts exactly the
bodies that carry the spelling of a packet, and gives that packet.
-/

namespace PacketWire.Codec

open Compression VarInt

/-- Whether a compressed body may declare the size `v`. -/
def InRange (c : Codec) (v : Int32) : Prop :=
  max c.threshold.toInt 1 ≤ v.toInt ∧ v.toInt ≤ c.maxUncompressed

inductive Carries (c : Codec) : Bytes → Bytes → Prop where
  | plain {text : Bytes} : c.threshold < 0 → Carries c text text
  | marked {s text : Bytes} : ¬ c.threshold < 0 → Numeral32 s 0 → Carries c (s ++ text) text
  /-- The size of the text before a stream that inflates to it. -/
  | packed {s stream text : Bytes} {v : Int32} : ¬ c.threshold < 0 → Numeral32 s v →
      c.InRange v → v.toInt = text.length →
      c.compressor.inflate stream text.length = .done text → Carries c (s ++ stream) text

variable {c : Codec}

theorem inflated_eq_ok_iff {stream text : Bytes} {size : Nat} :
    c.inflated stream size = .ok text ↔
      c.compressor.inflate stream size = .done text ∧ text.length = size := by
  unfold inflated
  obtain ⟨status, written⟩ := c.compressor.inflate stream size
  cases status with
  | done =>
    by_cases hw : written.length = size
    · simp only [hw, if_true, Except.ok.injEq, Inflation.done, Inflation.mk.injEq, true_and]
      constructor
      · rintro rfl; exact ⟨rfl, hw⟩
      · exact fun h => h.1
    · simp only [hw, if_false, reduceCtorEq, Inflation.done, Inflation.mk.injEq, true_and,
        false_iff]
      rintro ⟨rfl, h⟩
      exact hw h
  | outputFull => simp [Inflation.done]
  | corrupt => simp [Inflation.done]

theorem inflated_of_misfit {stream : Bytes} {size : Nat}
    (h : ∀ text, c.compressor.inflate stream size = .done text → text.length ≠ size) :
    c.inflated stream size = .error (.decompression
      (if (c.compressor.inflate stream size).status = .corrupt then .status
        else .sizeMismatch)) := by
  unfold inflated
  revert h
  generalize c.compressor.inflate stream size = inflation
  obtain ⟨status, written⟩ := inflation
  intro h
  cases status with
  | done => simp [h written rfl]
  | outputFull => rfl
  | corrupt => rfl

/-- Unpacking follows the grammar. -/
theorem carries_iff_unpack {body text : Bytes} :
    Carries c body text ↔ ∃ storage, c.unpack body = .ok storage ∧ storage.bytes = text := by
  constructor
  · intro h
    cases h with
    | plain ht =>
      have hl : c.layout body = .ok (.raw 0) := layout_eq_raw_iff.mpr (.inl ⟨ht, rfl⟩)
      exact ⟨.shared body, by simp [unpack, hl], rfl⟩
    | @marked s _ ht hs =>
      have hl : c.layout (s ++ text) = .ok (.raw s.length) :=
        layout_eq_raw_iff.mpr (.inr ⟨ht, s, text, rfl, hs, rfl⟩)
      exact ⟨.shared text, by simp [unpack, hl], rfl⟩
    | @packed s stream _ v ht hs hr hv hi =>
      have hl : c.layout (s ++ stream) = .ok (.packed s.length text.length) := by
        obtain ⟨h1, h2⟩ := hr
        exact layout_eq_packed_iff.mpr
          ⟨ht, s, stream, v, rfl, hs, rfl, hv, by omega, by omega, by omega⟩
      have hf : c.inflated stream text.length = .ok text := inflated_eq_ok_iff.mpr ⟨hi, rfl⟩
      exact ⟨.pooled { bytes := text }, by simp [unpack, hl, hf, Except.map], rfl⟩
  · rintro ⟨storage, h, rfl⟩
    unfold unpack at h
    split at h
    · cases h
    · rename_i start hl
      cases h
      obtain ⟨ht, rfl⟩ | ⟨ht, s, rest, rfl, hs, rfl⟩ := layout_eq_raw_iff.mp hl
      · exact .plain ht
      · have hm : Carries c (s ++ rest) rest := .marked ht hs
        simpa [Storage.bytes] using hm
    · rename_i start size hl
      obtain ⟨ht, s, stream, v, rfl, hs, rfl, hv, h1, hmin, hmax⟩ := layout_eq_packed_iff.mp hl
      simp only [List.drop_left] at h
      cases hf : c.inflated stream size with
      | error e => simp [hf, Except.map] at h
      | ok text =>
        obtain ⟨hi, rfl⟩ := inflated_eq_ok_iff.mp hf
        simp only [hf, Except.map, Except.ok.injEq] at h
        subst h
        exact .packed ht hs ⟨by omega, by omega⟩ hv hi

theorem decodeBody_eq_ok_iff (c : Codec) (body : Bytes) {r : Reserves} (hr : r.Unlimited)
    (x : Content) : (c.decodeBody body r).1.map Packet.content = .ok x ↔
      Carries c body x.body ∧ x.Spelled := by
  rw [decodeBody_content c body hr, carries_iff_unpack]
  cases c.unpack body with
  | error e => simp [Except.bind]
  | ok storage =>
    simp only [Except.bind, Packet.contentOf_eq_ok_iff, Except.ok.injEq, exists_eq_left']
    exact and_congr_left fun _ => eq_comm

/-- A stream that does not come to exactly the declared size is refused as such. -/
theorem decodeBody_of_misfit {s stream : Bytes} {v : Int32} {r : Reserves} (hr : r.Unlimited)
    (ht : ¬ c.threshold < 0) (hs : Numeral32 s v) (hv : c.InRange v)
    (h : ∀ text, c.compressor.inflate stream v.toInt.toNat = .done text →
      text.length ≠ v.toInt.toNat) :
    (c.decodeBody (s ++ stream) r).1 = .error (.decompression
      (if (c.compressor.inflate stream v.toInt.toNat).status = .corrupt then .status
        else .sizeMismatch)) := by
  obtain ⟨h1, h2⟩ := hv
  have hl : c.layout (s ++ stream) = .ok (.packed s.length v.toInt.toNat) :=
    layout_eq_packed_iff.mpr
      ⟨ht, s, stream, v, rfl, hs, rfl, by omega, by omega, by omega, by omega⟩
  have hu := decodeBody_trimmed c (s ++ stream) hr
  simp only [unpack, hl, List.drop_left, inflated_of_misfit h] at hu
  cases hd : (c.decodeBody (s ++ stream) r).1 with
  | ok p => simp [hd, Except.map, Except.bind] at hu
  | error e => simpa [hd, Except.map, Except.bind] using hu

theorem decodeBody_bounds {body : Bytes} {r : Reserves} (hr : r.Unlimited) {p : Packet}
    (h : (c.decodeBody body r).1 = .ok p) :
    p.start ≤ p.payloadStart ∧ p.payloadStart ≤ p.storage.bytes.length := by
  have hu := decodeBody_trimmed c body hr
  rw [h] at hu
  cases hs : c.unpack body with
  | error e => simp [hs, Except.map, Except.bind] at hu
  | ok storage =>
    have hp : Packet.parse storage 0 = .ok p.trimmed := by
      simpa [hs, Except.map, Except.bind] using hu.symm
    simpa [Packet.trimmed, Storage.bytes_trimmed] using
      Packet.parse_bounds (Nat.zero_le _) hp

/-- Decoding accepts exactly the grammar. A stream that inflates to more or less than its size is
refused as such, and no slice that is taken lies outside its bytes. -/
theorem decodeBody_accepts_exactly (c : Codec) (body : Bytes) {r : Reserves}
    (hr : r.Unlimited) :
    (∀ x : Content, (c.decodeBody body r).1.map Packet.content = .ok x ↔
      Carries c body x.body ∧ x.Spelled) ∧
    (∀ s stream v, body = s ++ stream → ¬ c.threshold < 0 → Numeral32 s v → c.InRange v →
      (∀ text, c.compressor.inflate stream v.toInt.toNat = .done text →
        text.length ≠ v.toInt.toNat) →
      (c.decodeBody body r).1 = .error (.decompression
        (if (c.compressor.inflate stream v.toInt.toNat).status = .corrupt then .status
          else .sizeMismatch))) ∧
    ((∀ x : Content, ¬ (Carries c body x.body ∧ x.Spelled)) →
      ∃ e, (c.decodeBody body r).1 = .error e) ∧
    (∀ l, c.layout body = .ok l → l.start ≤ body.length) ∧
    (∀ p, (c.decodeBody body r).1 = .ok p →
      p.start ≤ p.payloadStart ∧ p.payloadStart ≤ p.storage.bytes.length) := by
  refine ⟨decodeBody_eq_ok_iff c body hr, ?_, ?_, fun l => layout_start_le,
    fun p => decodeBody_bounds hr⟩
  · rintro s stream v rfl ht hs hv h
    exact decodeBody_of_misfit hr ht hs hv h
  · intro hnone
    cases hd : (c.decodeBody body r).1 with
    | error e => exact ⟨e, rfl⟩
    | ok p =>
      exact absurd ((decodeBody_eq_ok_iff c body hr p.content).mp (by simp [hd, Except.map]))
        (hnone p.content)

/-- A body under a threshold of sixteen that is too short to be compressed. -/
theorem decodeBody_accepts_marked : Reserves.Unlimited {} ∧
    (({ threshold := 16 } : Codec).decodeBody [0, 3, 7, 9] {}).1.map Packet.content =
      .ok { id := 3, payload := [7, 9], body := [3, 7, 9] } :=
  ⟨rfl, ((decodeBody_accepts_exactly { threshold := 16 } [0, 3, 7, 9] (r := {}) rfl).1 _).mpr
    ⟨.marked (s := [0]) (by decide) ⟨0, .last (b := 0) (by decide), by decide, rfl⟩,
      [3], rfl, 3, .last (b := 3) (by decide), by decide, rfl⟩⟩

end PacketWire.Codec
