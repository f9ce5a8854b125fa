import PacketWire.Proofs.Codec.RoundTrip
import PacketWire.Proofs.Outbox.Attempts

/-!
# What encoders append

`Codec.Writes` says which frame body an encoder makes of a text: the text as it is, behind a zero,
or compressed behind its size. Under limits that fit 32 bits, an encoder appends the length of that
body and the body, or leaves everything as it was. A packet that is written part by part comes out
as its text does. So what a row of items adds up to, in a buffer or in an outbox, are the frames of
those that were accepted.
-/

namespace PacketWire

open VarInt

namespace VarInt

theorem encode32_ofNat {n : Nat} (h : n ≤ maxValue) : encode32 (Int32.ofNat n) = groups n := by
  have hn : (Int32.ofNat n).toUInt32.toNat = n := by
    simp only [maxValue] at h
    simp
    omega
  rw [encode32, hn]

end VarInt

namespace Codec

variable {c : Codec} {text frame : Bytes} {z : Bool}

/-- The frame body that encoders make of a text, and whether it is compressed. -/
inductive Writes (c : Codec) (text : Bytes) : Bool → Bytes → Prop where
  | plain : c.threshold.toInt < 0 → Writes c text false text
  | marked : 0 ≤ c.threshold.toInt → text.length < c.threshold.toInt →
      Writes c text false (0 :: text)
  | packed {stream : Bytes} : 0 ≤ c.threshold.toInt → c.threshold.toInt ≤ text.length →
      c.compressor.compress text = some stream → Writes c text true (groups text.length ++ stream)

/-- Only the compressor can keep a text from having a frame body. -/
theorem compress_of_not_writes (h : ∀ z frame, ¬ c.Writes text z frame) :
    0 ≤ c.threshold.toInt ∧ c.threshold.toInt ≤ text.length ∧
      c.compressor.compress text = none := by
  have ht : 0 ≤ c.threshold.toInt := Int.not_lt.mp fun hneg => h _ _ (.plain hneg)
  have hl : c.threshold.toInt ≤ text.length := Int.not_lt.mp fun hlt => h _ _ (.marked ht hlt)
  refine ⟨ht, hl, Option.eq_none_iff_forall_ne_some.mpr fun stream hs => ?_⟩
  exact h _ _ (.packed ht hl hs)

theorem wrap_of_threshold (ht : 0 ≤ c.threshold.toInt) (hl : c.threshold.toInt ≤ text.length) :
    c.wrap text =
      if c.maxUncompressed < text.length then .error (.oversizedPacket text.length)
      else
        match c.compressor.compress text with
        | none => .error .compressionFailure
        | some stream => .ok (true, lengthBytes text.length ++ stream) := by
  have h0 : ¬ c.threshold < 0 := by
    rw [Int32.lt_iff_toInt_lt]
    exact Int.not_lt.mpr ht
  have hlen : ¬ text.length < c.threshold.toInt.toNat := by omega
  exact (if_neg h0).trans (if_neg hlen)

theorem wrap_of_writes (hM : c.maxUncompressed ≤ maxValue) (h : c.Writes text z frame)
    (hfits : z = true → text.length ≤ c.maxUncompressed) : c.wrap text = .ok (z, frame) := by
  have h0 : c.threshold < 0 ↔ c.threshold.toInt < 0 := Int32.lt_iff_toInt_lt
  cases h with
  | plain ht => rw [wrap, if_pos (h0.mpr ht)]
  | marked ht hl => rw [wrap, if_neg (by rw [h0]; omega), if_pos (by omega)]
  | packed ht hl hp =>
    have hle := hfits rfl
    rw [wrap_of_threshold ht hl, if_neg (by omega), hp]
    simp only [lengthBytes, encode32_ofNat (Nat.le_trans hle hM)]

/-- A text is refused for its own length first, then for that of its frame body. -/
theorem encodeBody_of_writes (hF : c.maxFrame ≤ maxValue) (hM : c.maxUncompressed ≤ maxValue)
    (hne : text ≠ []) (h : c.Writes text z frame) (out : Bytes) :
    c.encodeBody text out =
      if z ∧ c.maxUncompressed < text.length then (.error (.oversizedPacket text.length), out)
      else if c.maxFrame < frame.length then (.error (.oversizedPacket frame.length), out)
      else (.ok z, out ++ groups frame.length ++ frame) := by
  rw [encodeBody_eq hne]
  by_cases hbig : z = true ∧ c.maxUncompressed < text.length
  · obtain ⟨rfl, hlarge⟩ := hbig
    cases h with
    | packed ht hl _ => rw [wrap_of_threshold ht hl, if_pos hlarge, if_pos ⟨rfl, hlarge⟩]
  · have hsmall : z = true → text.length ≤ c.maxUncompressed :=
      fun hz => Nat.not_lt.mp fun hlarge => hbig ⟨hz, hlarge⟩
    rw [wrap_of_writes hM h hsmall, if_neg hbig]
    by_cases hlong : c.maxFrame < frame.length
    · simp only [if_pos hlong]
    · simp only [if_neg hlong, Frame.encode, List.append_assoc,
        encode32_ofNat (Nat.le_trans (Nat.not_lt.mp hlong) hF)]

/-- A text that the compressor fails on is refused for its length all the same. -/
theorem encodeBody_of_not_writes (hne : text ≠ []) (h : ∀ z frame, ¬ c.Writes text z frame)
    (out : Bytes) :
    c.encodeBody text out =
      (.error (if c.maxUncompressed < text.length then .oversizedPacket text.length
        else .compressionFailure), out) := by
  obtain ⟨ht, hl, hp⟩ := compress_of_not_writes h
  rw [encodeBody_eq hne, wrap_of_threshold ht hl, hp]
  by_cases hlarge : c.maxUncompressed < text.length
  · simp only [if_pos hlarge]
  · simp only [if_neg hlarge]

/-! ## Packets -/

/-- A packet comes out as its text would, however much of it is written directly. -/
theorem encodePacket_as_text (c : Codec) (p : Outgoing) (out : Bytes) (r : Reserves) :
    p.bodyLength = p.body.length ∧
    ((c.encodePacket p out r).result, (c.encodePacket p out r).out) = c.encodeBody p.body out ∧
    c.put p out r = c.putRaw p.body out r := by
  have hsent : c.encodePacket p out r = sent p.body.length r (c.encodeBody p.body out) := by
    rw [encodePacket, encodeParts_eq, p.length_body]
  refine ⟨p.length_body.symm, ?_, ?_⟩
  · rw [hsent]
    obtain ⟨_ | _, _⟩ := c.encodeBody p.body out <;> rfl
  · rw [put, hsent, putRaw]

/-! ## Rows of items -/

/-- What an encoder answers an item at its turn. -/
def answerTo (c : Codec) (x : Int32 × Item) : Except WireError Bool :=
  ((c.switch x.1).encodeBody x.2.body []).1

/-- The frame of an item at its turn, or nothing if it is refused. -/
def turnFrame (c : Codec) (x : Int32 × Item) : Bytes := (c.switch x.1).itemFrame x.2

/-- The items of a row that are accepted, each at its turn. -/
def accepted (c : Codec) (xs : List (Int32 × Item)) : List (Int32 × Item) :=
  xs.filter fun x => (c.answerTo x).isOk

theorem turnFrame_of_accepted (hF : c.maxFrame ≤ maxValue) (hM : c.maxUncompressed ≤ maxValue)
    {x : Int32 × Item} (h : (c.answerTo x).isOk) :
    ∃ z frame, (c.switch x.1).Writes x.2.body z frame ∧ c.answerTo x = .ok z ∧
      c.turnFrame x = groups frame.length ++ frame := by
  have hne : x.2.body ≠ [] := by
    intro hnil
    simp only [answerTo, hnil] at h
    cases h
  by_cases hw : ∃ z frame, (c.switch x.1).Writes x.2.body z frame
  · obtain ⟨z, frame, hw⟩ := hw
    have heq := encodeBody_of_writes (c := c.switch x.1) hF hM hne hw []
    simp only [answerTo, turnFrame, itemFrame] at h ⊢
    rw [heq] at h ⊢
    split at h
    · cases h
    · split at h
      · cases h
      · rename_i hsmall hfits
        rw [if_neg hsmall, if_neg hfits]
        exact ⟨z, frame, hw, rfl, rfl⟩
  · have heq := encodeBody_of_not_writes hne (fun z frame hz => hw ⟨z, frame, hz⟩) []
    simp only [answerTo, heq] at h
    cases h

theorem turnFrame_of_refused {x : Int32 × Item} (h : (c.answerTo x).isOk = false) :
    c.turnFrame x = [] := by
  cases hx : c.answerTo x with
  | error e => exact itemFrame_of_refused hx
  | ok z =>
    rw [hx] at h
    cases h

theorem flatMap_accepted (c : Codec) (xs : List (Int32 × Item)) :
    (c.accepted xs).flatMap c.turnFrame = xs.flatMap c.turnFrame := by
  induction xs with
  | nil => rfl
  | cons x xs ih =>
    rw [accepted, List.filter_cons]
    split
    · rw [List.flatMap_cons, List.flatMap_cons, ← ih, accepted]
    · rename_i hx
      rw [List.flatMap_cons, turnFrame_of_refused (Bool.eq_false_iff.mpr hx), List.nil_append,
        ← ih, accepted]

/-- Every item is answered, and its frame appended, as if it were the only one. -/
theorem putAll_eq (c : Codec) (xs : List (Int32 × Item)) (out : Bytes) (r : Reserves) :
    (c.putAll xs out r).1.map (·.result) = xs.map c.answerTo ∧
      (c.putAll xs out r).2 = out ++ xs.flatMap c.turnFrame := by
  induction xs generalizing out r with
  | nil => exact ⟨rfl, (List.append_nil out).symm⟩
  | cons x xs ih =>
    obtain ⟨hresult, hout⟩ := (c.switch x.1).putItem_alone out r x.2
    obtain ⟨hresults, hwhole⟩ :=
      ih (out ++ c.turnFrame x) ((c.switch x.1).putItem out r x.2).reserves
    simp only [putAll, hout, List.map_cons, List.flatMap_cons]
    exact ⟨congrArg₂ List.cons hresult hresults, hwhole.trans (List.append_assoc ..)⟩

theorem putAll_switch (c : Codec) (t : Int32) (xs : List (Int32 × Item)) (out : Bytes)
    (r : Reserves) : (c.switch t).putAll xs out r = c.putAll xs out r := by
  induction xs generalizing out r with
  | nil => rfl
  | cons x xs ih =>
    simp only [putAll, ih]
    rfl

end Codec

namespace Outbox

/-- Stages items one behind the other, each under its own threshold: what every call gave, and the
outbox in the end. -/
def stageEach (o : Outbox) : List (Int32 × Codec.Item) → Reserves →
    List (Except WireError Unit) × Outbox
  | [], _ => ([], o)
  | (t, x) :: xs, r =>
    let (result, o, r) := (o.switch t).stage x r
    let (results, o) := stageEach o xs r
    (result :: results, o)

theorem stageEach_eq (o : Outbox) (xs : List (Int32 × Codec.Item)) (r : Reserves) :
    (o.stageEach xs r).1 =
        (o.codec.putAll xs o.staged r).1.map (fun e => e.result.map fun _ => ()) ∧
      (o.stageEach xs r).2.staged = (o.codec.putAll xs o.staged r).2 := by
  induction xs generalizing o r with
  | nil => exact ⟨rfl, rfl⟩
  | cons x xs ih =>
    obtain ⟨t, x⟩ := x
    have hcodec : ((o.switch t).stage x r).2.1.codec = o.codec.switch t := rfl
    obtain ⟨hresults, hstaged⟩ := ih ((o.switch t).stage x r).2.1 ((o.switch t).stage x r).2.2
    rw [hcodec, Codec.putAll_switch] at hresults hstaged
    exact ⟨congrArg (((o.switch t).stage x r).1 :: ·) hresults, hstaged⟩

end Outbox

/-- A text is refused without an id, for its own length if it is to be compressed, or for that of
its frame; else its frame is appended. A row of items adds the frames of those that are accepted. -/
theorem Codec.encoders_append_frames {c : Codec} (hF : c.maxFrame ≤ maxValue)
    (hM : c.maxUncompressed ≤ maxValue) :
    (∀ out, c.encodeBody [] out = (.error (.invalidFrame .missingId), out)) ∧
    (∀ text z frame, text ≠ [] → c.Writes text z frame → ∀ out, c.encodeBody text out =
      if z ∧ c.maxUncompressed < text.length then (.error (.oversizedPacket text.length), out)
      else if c.maxFrame < frame.length then (.error (.oversizedPacket frame.length), out)
      else (.ok z, out ++ groups frame.length ++ frame)) ∧
    (∀ text, text ≠ [] → (∀ z frame, ¬ c.Writes text z frame) → ∀ out, c.encodeBody text out =
      (.error (if c.maxUncompressed < text.length then .oversizedPacket text.length
        else .compressionFailure), out)) ∧
    (∀ x, (c.answerTo x).isOk → ∃ z frame, (c.switch x.1).Writes x.2.body z frame ∧
      c.answerTo x = .ok z ∧ c.turnFrame x = groups frame.length ++ frame) ∧
    (∀ xs out r,
      (c.putAll xs out r).1.map (·.result) = xs.map c.answerTo ∧
      (c.putAll xs out r).2 = out ++ (c.accepted xs).flatMap c.turnFrame ∧
      ∀ r', (c.putAll (c.accepted xs) out r').2 = (c.putAll xs out r).2) ∧
    (∀ xs staged r,
      let o : Outbox := { codec := c, staged }
      (o.stageEach xs r).1 = xs.map (fun x => (c.answerTo x).map fun _ => ()) ∧
      (o.stageEach xs r).2.staged = staged ++ (c.accepted xs).flatMap c.turnFrame ∧
      ∀ r', (o.stageEach (c.accepted xs) r').2.staged = (o.stageEach xs r).2.staged) := by
  have hrow (xs : List (Int32 × Item)) (out : Bytes) (r r' : Reserves) :
      (c.putAll xs out r).2 = out ++ (c.accepted xs).flatMap c.turnFrame ∧
        (c.putAll (c.accepted xs) out r').2 = (c.putAll xs out r).2 := by
    rw [(c.putAll_eq xs out r).2, (c.putAll_eq (c.accepted xs) out r').2, c.flatMap_accepted xs]
    exact ⟨rfl, rfl⟩
  refine ⟨fun out => rfl, fun text z frame hne hw => encodeBody_of_writes hF hM hne hw,
    fun text hne hw => encodeBody_of_not_writes hne hw, fun x => turnFrame_of_accepted hF hM,
    fun xs out r => ⟨(c.putAll_eq xs out r).1, (hrow xs out r r).1, fun r' => (hrow xs out r r').2⟩,
    fun xs staged r => ?_⟩
  intro o
  obtain ⟨hresults, hstaged⟩ := o.stageEach_eq xs r
  refine ⟨?_, hstaged.trans (hrow xs staged r r).1, fun r' => ?_⟩
  · have hanswers := congrArg (List.map (Except.map fun _ => ())) (c.putAll_eq xs staged r).1
    simp only [List.map_map] at hanswers
    exact hresults.trans hanswers
  · rw [hstaged, (o.stageEach_eq (c.accepted xs) r').2]
    exact (hrow xs staged r r').2

/-- One of the three that come out is compressed; of the others one has no id, and two are too
long. -/
theorem Codec.encoders_append_frames_between :
    let c : Codec := { maxFrame := 16, maxUncompressed := 40 }
    let xs : List (Int32 × Item) :=
      [(4, .packet ⟨5, [7]⟩), (4, .raw []), (4, .raw (6 :: Bytes.zeros 30)),
        (-1, .raw (Bytes.zeros 17)), (4, .raw (Bytes.zeros 41)), (-1, .packet ⟨7, [1]⟩)]
    c.maxFrame ≤ maxValue ∧ c.maxUncompressed ≤ maxValue ∧
      (c.putAll xs [9] {}).2 =
        [9] ++ [3, 0, 5, 7] ++
          [12, 31, 120, 156, 99, 99, 192, 11, 0, 0, 217, 0, 7] ++ [2, 7, 1] := by
  intro c xs
  have hF : c.maxFrame ≤ maxValue := by decide
  have hM : c.maxUncompressed ≤ maxValue := by decide
  obtain ⟨-, -, -, -, hrow, -⟩ := encoders_append_frames hF hM
  exact ⟨hF, hM, (hrow xs [9] {}).2.1.trans (by decide +kernel)⟩

end PacketWire
