import Mathlib.Data.List.Forall2
import PacketWire.Settings.Check
import PacketWire.Proofs.Codec.Encode

/-!
# Whole streams through a codec

`putAll` encodes a row of items into one buffer and `nextAll` takes as many packets off its front,
each under the threshold of its turn. If the settings have no problems and every encoder
succeeded, every call takes exactly the next frame and gives what was sent, and bytes behind the
last frame stay.
-/

namespace PacketWire.Codec

open VarInt

/-- Encodes items one behind the other, each under its own threshold: what every encoder did, and
the bytes in the end. -/
def putAll (c : Codec) : List (Int32 × Item) → Bytes → Reserves → List (Encoded Bool) × Bytes
  | [], out, _ => ([], out)
  | (t, x) :: xs, out, r =>
    let e := (c.switch t).putItem out r x
    let (es, whole) := putAll c xs e.out e.reserves
    (e :: es, whole)

/-- Takes packets one after the other, each under its own threshold. -/
def nextAll (c : Codec) : List Int32 → Bytes → Reserves → List Taken × Bytes
  | [], bs, _ => ([], bs)
  | t :: ts, bs, r =>
    let a := (c.switch t).next bs r
    let (as, left) := nextAll c ts a.left a.reserves
    (a :: as, left)

/-- Whether a verdict is what an item says: the packet that was sent, or whatever sharing the text
makes of it. -/
def Item.Arrives : Item → Except WireError (Option Packet) → Prop
  | .packet p, result => ∃ q, result = .ok (some q) ∧ q.id = p.id ∧ q.payload = p.payload
  | .raw body, result => result.map (Option.map Packet.content) =
      ((Packet.ofShared body).map Packet.content).map some

variable {c : Codec}

/-! ## One frame -/

theorem decodeBody_of_carries {frame text : Bytes} {r : Reserves} (hr : r.Unlimited)
    (h : Carries c frame text) :
    (c.decodeBody frame r).1.map Packet.content = Packet.contentOf text := by
  obtain ⟨storage, hu, rfl⟩ := carries_iff_unpack.mp h
  rw [decodeBody_content c frame hr, hu]
  rfl

theorem arrives_of_content {x : Item} {result : Except WireError Packet}
    (h : result.map Packet.content = Packet.contentOf x.body) : x.Arrives (result.map some) := by
  cases x with
  | packet p =>
    rw [Item.body, p.contentOf_body] at h
    cases result with
    | error e => simp [Except.map] at h
    | ok q =>
      simp only [Except.map, Except.ok.injEq, Packet.content, Content.mk.injEq] at h
      exact ⟨q, rfl, h.1, h.2.1⟩
  | raw body =>
    rw [Item.body, Packet.contentOf] at h
    simp only [Item.Arrives, ← h]
    cases result <;> rfl

/-- The frame that an encoder appended is taken off again, whatever lies behind it. -/
theorem next_of_putItem {out : Bytes} {r : Reserves} {x : Item} (hne : x.body ≠ [])
    (hf : c.maxFrame ≤ maxValue) (hm : c.maxUncompressed ≤ maxValue)
    (hz : c.compressor.Restores x.body) (h : (c.putItem out r x).result.isOk) :
    ∃ frame, (c.putItem out r x).out = out ++ frame ∧ ∀ rest r', r'.Unlimited →
      (c.next (frame ++ rest) r').left = rest ∧ x.Arrives (c.next (frame ++ rest) r').result := by
  obtain ⟨body, hout, hc, h1, hmax⟩ := frame_of_putItem hne hm hz h
  refine ⟨Frame.encode body, hout, fun rest r' hr => ?_⟩
  obtain ⟨hres, hleft⟩ := next_of_take r' (Frame.take_encode h1 hmax (by omega) rest)
  refine ⟨hleft, ?_⟩
  rw [hres]
  exact arrives_of_content (decodeBody_of_carries hr hc)

/-! ## The whole stream -/

/-- What a row of encoders appended is taken off again, call by call. -/
theorem nextAll_of_putAll (hf : c.maxFrame ≤ maxValue) (hm : c.maxUncompressed ≤ maxValue)
    {xs : List (Int32 × Item)} (hne : ∀ x ∈ xs, x.2.body ≠ [])
    (hz : ∀ x ∈ xs, c.compressor.Restores x.2.body) {out : Bytes} {r : Reserves}
    (hok : ∀ e ∈ (c.putAll xs out r).1, e.result.isOk) :
    ∃ frames, (c.putAll xs out r).2 = out ++ frames ∧ ∀ tail r', r'.Unlimited →
      (c.nextAll (xs.map (·.1)) (frames ++ tail) r').2 = tail ∧
      List.Forall₂ (fun x a => x.2.Arrives a.result) xs
        (c.nextAll (xs.map (·.1)) (frames ++ tail) r').1 ∧
      List.Forall₂ (fun e a => e.out ++ a.left = out ++ frames ++ tail) (c.putAll xs out r).1
        (c.nextAll (xs.map (·.1)) (frames ++ tail) r').1 := by
  induction xs generalizing out r with
  | nil => exact ⟨[], by simp [putAll], fun tail r' _ => ⟨rfl, .nil, .nil⟩⟩
  | cons y xs ih =>
    obtain ⟨t, x⟩ := y
    simp only [putAll, List.mem_cons, forall_eq_or_imp] at hok hne hz
    obtain ⟨hx, hok⟩ := hok
    obtain ⟨frame, hout, hnext⟩ :=
      next_of_putItem (c := c.switch t) hne.1 hf hm hz.1 hx
    obtain ⟨frames, hwhole, hrest⟩ := ih hne.2 hz.2 hok
    refine ⟨frame ++ frames, ?_, fun tail r' hr => ?_⟩
    · simp only [putAll]
      rw [hwhole, hout, List.append_assoc]
    · obtain ⟨hleft, harr⟩ := hnext (frames ++ tail) r' hr
      obtain ⟨h1, h2, h3⟩ :=
        hrest tail _ (next_unlimited (c.switch t) (frame ++ (frames ++ tail)) hr)
      simp only [List.map_cons, nextAll, List.append_assoc, putAll, hleft]
      refine ⟨h1, .cons harr h2, .cons ?_ ?_⟩
      · rw [hleft, hout, List.append_assoc]
      · simpa only [hout, List.append_assoc] using h3

theorem limits_of_no_problems {s : Settings.CodecSection} (h : s.problems = []) :
    s.maxFrame ≤ maxValue ∧ s.maxUncompressed ≤ maxValue := by
  simp only [Settings.CodecSection.problems, List.append_eq_nil_iff] at h
  obtain ⟨⟨⟨-, hf⟩, hm⟩, -⟩ := h
  constructor
  · by_contra hlt
    rw [if_neg (by omega), if_pos (by omega)] at hf
    cases hf
  · by_contra hlt
    rw [if_neg (by omega), if_pos (by omega)] at hm
    cases hm

/-- What was encoded under settings without problems is decoded again, frame by frame, and the bytes
behind stay. -/
theorem nextAll_putAll {s : Settings.CodecSection} (hs : s.problems = [])
    (formats : Compression.Formats) {xs : List (Int32 × Item)} (hne : ∀ x ∈ xs, x.2 ≠ .raw [])
    (hz : ∀ x ∈ xs, (formats s.kind s.level).Restores x.2.body) (r : Reserves) {r' : Reserves}
    (hr : r'.Unlimited) (tail : Bytes) :
    let c : Codec := s.build formats
    let sent := c.putAll xs [] r
    let got := c.nextAll (xs.map (·.1)) (sent.2 ++ tail) r'
    (∀ e ∈ sent.1, e.result.isOk) →
      got.2 = tail ∧
      List.Forall₂ (fun x a => x.2.Arrives a.result) xs got.1 ∧
      List.Forall₂ (fun e a => e.out ++ a.left = sent.2 ++ tail) sent.1 got.1 := by
  intro c sent got hok
  obtain ⟨hf, hm⟩ := limits_of_no_problems hs
  have hbody : ∀ x ∈ xs, x.2.body ≠ [] := by
    rintro ⟨t, p | body⟩ hx
    · exact p.body_ne_nil
    · rintro rfl
      exact hne _ hx rfl
  obtain ⟨frames, hwhole, h⟩ := nextAll_of_putAll (c := c) hf hm hbody hz hok
  have hw : sent.2 = frames := by simpa using hwhole
  simpa only [got, hw, List.nil_append] using h tail r' hr

/-- A stream of all three forms of a frame, with a text between that is no packet. -/
theorem nextAll_putAll_mixed :
    let s : Settings.CodecSection := { level := 0 }
    let c : Codec := s.build Compression.Kind.compressor
    let xs : List (Int32 × Item) := [(-1, .packet ⟨-5, [1, 2]⟩), (64, .raw [128]),
      (4, .packet ⟨7, [1, 1, 1]⟩)]
    let sent := c.putAll xs [] {}
    let got := c.nextAll (xs.map (·.1)) (sent.2 ++ [9, 9]) {}
    (∀ e ∈ sent.1, e.result.isOk) ∧ got.2 = [9, 9] ∧
      List.Forall₂ (fun x a => x.2.Arrives a.result) xs got.1 ∧
      List.Forall₂ (fun e a => e.out ++ a.left = sent.2 ++ [9, 9]) sent.1 got.1 := by
  intro s c xs sent got
  have hok : ∀ e ∈ sent.1, e.result.isOk := by decide +kernel
  have hne : ∀ x ∈ xs, x.2 ≠ .raw [] := by decide
  exact ⟨hok, nextAll_putAll (s := s) (by decide) Compression.Kind.compressor hne
    (by decide +kernel) {} (rfl : Reserves.Unlimited {}) [9, 9] hok⟩

end PacketWire.Codec
