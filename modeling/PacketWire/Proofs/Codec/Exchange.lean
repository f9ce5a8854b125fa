import PacketWire.Proofs.Codec.Output
import PacketWire.Proofs.Codec.Pooled

/-!
# What both sides of an exchange count

`Codec.turnBody` is the frame body of an item at its turn. The side that sends counts every item,
and as its bytes those that it has before compression and without a marker. The side that receives
counts every packet too, and as its bytes those of the frame body. So the packets of an exchange and
the compressed ones among them come out the same on both sides, and the bytes do while compression
is off.
-/

namespace PacketWire.Codec

open VarInt

variable {c : Codec} {text frame : Bytes} {z : Bool} {r : Reserves}

/-- An item that is accepted is wrapped and counted with the length of its text. -/
theorem putItem_eq_ok {x : Item} {out : Bytes} (h : (c.putItem out r x).result = .ok z) :
    x.body ≠ [] ∧ ∃ frame, c.wrap x.body = .ok (z, frame) ∧ frame.length ≤ c.maxFrame ∧
      (c.putItem out r x).out = out ++ Frame.encode frame ∧
      (c.putItem out r x).reserves.metrics = r.metrics.packetEncoded x.body.length z := by
  have hmetrics (n : Nat) (v : Except WireError Bool × Bytes)
      (hv : (errorCounted (sent n r v)).result = .ok z) :
      (errorCounted (sent n r v)).reserves.metrics = r.metrics.packetEncoded n z := by
    obtain ⟨_ | _, _⟩ := v <;> cases hv
    rfl
  have heq := c.putItem_eq out r x
  have hne : x.body ≠ [] := by
    intro hnil
    rw [hnil, h] at heq
    cases heq
  rw [encodeBody_eq hne, h] at heq
  refine ⟨hne, ?_⟩
  split at heq
  · cases heq
  · rename_i z' frame hw
    split at heq
    · cases heq
    · rename_i hfits
      obtain ⟨hz, hout⟩ := Prod.mk.inj heq
      cases hz
      refine ⟨frame, hw, Nat.not_lt.mp hfits, hout, ?_⟩
      cases x with
      | packet p =>
        rw [Item.body, p.length_body]
        exact hmetrics _ _ h
      | raw body => exact hmetrics _ _ h

theorem counts_of_answer {x : Int32 × Item} (h : c.answerTo x = .ok z) {κ : Type} (k : κ)
    (out staged scratch : Bytes) (r : Reserves) :
    let m := r.metrics.packetEncoded x.2.body.length z
    let sender : FrameSender κ := { codec := c.switch x.1, sink := k, reserves := r, scratch }
    ((c.switch x.1).putItem out r x.2).reserves.metrics = m ∧
      (sender.start x.2).2.reserves.metrics = m ∧
      (Outbox.stage { codec := c.switch x.1, staged } x.2 r).2.2.metrics = m := by
  have hput (out : Bytes) :
      ((c.switch x.1).putItem out r x.2).reserves.metrics =
        r.metrics.packetEncoded x.2.body.length z := by
    have hok := ((c.switch x.1).putItem_alone out r x.2).1.trans h
    obtain ⟨-, -, -, -, -, hm⟩ := putItem_eq_ok hok
    exact hm
  refine ⟨hput out, ?_, hput staged⟩
  rw [← hput [], FrameSender.start]
  split <;> rename_i hs <;> rw [← congrArg Prod.snd hs] <;> rfl

/-- Wrapping a text writes its frame body, and compresses none that is too long for the peer. -/
theorem writes_of_wrap (hM : c.maxUncompressed ≤ maxValue) (h : c.wrap text = .ok (z, frame)) :
    c.Writes text z frame ∧ (z = true → text.length ≤ c.maxUncompressed) := by
  have h0 : c.threshold < 0 ↔ c.threshold.toInt < 0 := Int32.lt_iff_toInt_lt
  unfold wrap at h
  split at h
  · rename_i ht
    cases h
    exact ⟨.plain (h0.mp ht), by simp⟩
  · rename_i ht
    rw [h0, Int.not_lt] at ht
    split at h
    · cases h
      exact ⟨.marked ht (by omega), by simp⟩
    · split at h
      · cases h
      · rename_i hl
        split at h
        · cases h
        · rename_i stream hp
          cases h
          rw [lengthBytes, encode32_ofNat (by omega)]
          exact ⟨.packed ht (by omega) hp, fun _ => Nat.not_lt.mp hl⟩

theorem packs_of_writes (hM : c.maxUncompressed ≤ maxValue) (hne : text ≠ [])
    (h : c.Writes text z frame) (hfits : z = true → text.length ≤ c.maxUncompressed) :
    c.packs frame = z := by
  have h0 : c.threshold < 0 ↔ c.threshold.toInt < 0 := Int32.lt_iff_toInt_lt
  have hon (ht : 0 ≤ c.threshold.toInt) : ¬ c.threshold < 0 := by
    rw [h0]
    omega
  have hraw {start : Nat} (hl : c.layout frame = .ok (.raw start)) : c.packs frame = false := by
    rw [packs, hl]
  cases h with
  | plain ht => exact hraw (layout_eq_raw_iff.mpr (.inl ⟨h0.mpr ht, rfl⟩))
  | marked ht =>
    have hzero : Numeral32 [0] 0 := ⟨0, .last (by decide), by decide, rfl⟩
    exact hraw (layout_eq_raw_iff.mpr (.inr ⟨hon ht, [0], text, rfl, hzero, rfl⟩))
  | @packed stream ht hl hp =>
    have hle := hfits rfl
    have hpos : 1 ≤ text.length := List.length_pos_iff.mpr hne
    have hsize := numeral32_encode32 (Int32.ofNat text.length)
    rw [encode32_ofNat (Nat.le_trans hle hM)] at hsize
    have hv : (Int32.ofNat text.length).toInt = text.length :=
      Int32.toInt_ofNat_of_lt (by simp only [maxValue] at hM; omega)
    have hlayout : c.layout (groups text.length ++ stream) =
        .ok (.packed (groups text.length).length text.length) :=
      layout_eq_packed_iff.mpr ⟨hon ht, _, stream, _, rfl, hsize, rfl, hv, hpos, hl, hle⟩
    rw [packs, hlayout]

theorem next_of_wrap (hF : c.maxFrame ≤ maxValue) (hM : c.maxUncompressed ≤ maxValue)
    (hne : text ≠ []) (hz : c.compressor.Restores text) (hp : (Packet.contentOf text).isOk)
    (hw : c.wrap text = .ok (z, frame)) (hl : frame.length ≤ c.maxFrame) (rest : Bytes)
    (hr : r.Unlimited) :
    (c.next (Frame.encode frame ++ rest) r).left = rest ∧
      (c.next (Frame.encode frame ++ rest) r).reserves.metrics =
        r.metrics.packetDecoded frame.length z := by
  obtain ⟨hc, hpos⟩ := carries_of_wrap hne hM hz hw
  have htake := Frame.take_encode hpos hl (by omega) rest
  have hsaid := decodeBody_of_carries hr hc
  have hm := metrics_decodeBody c frame hr
  obtain ⟨hwrites, hfits⟩ := writes_of_wrap hM hw
  rw [packs_of_writes hM hne hwrites hfits] at hm
  refine ⟨(next_of_take r htake).2, ?_⟩
  simp only [next, htake]
  rcases hd : c.decodeBody frame r with ⟨e | p, r'⟩ <;> rw [hd] at hsaid hm
  · rw [← hsaid] at hp
    cases hp
  · exact hm

/-- The frame body of an item at its turn, and whether it is compressed. -/
def turnBody (c : Codec) (x : Int32 × Item) : Bool × Bytes :=
  match (c.switch x.1).wrap x.2.body with
  | .ok v => v
  | .error _ => (false, [])

/-- The item gets a frame body at its turn that is not too long. -/
structure Fits (c : Codec) (x : Int32 × Item) : Prop where
  hasText : x.2.body ≠ []
  wrapped : (c.switch x.1).wrap x.2.body = .ok (c.turnBody x)
  short : (c.turnBody x).2.length ≤ c.maxFrame

def afterEncoding (r : Reserves) (es : List (Encoded Bool)) : Reserves :=
  es.foldl (fun _ e => e.reserves) r

def afterDecoding (r : Reserves) (ts : List Taken) : Reserves := ts.foldl (fun _ t => t.reserves) r

/-- A row that is accepted goes out as its frames, and every text is counted. -/
theorem counts_putAll {xs : List (Int32 × Item)} {out : Bytes}
    (hok : ∀ e ∈ (c.putAll xs out r).1, e.result.isOk) :
    (∀ x ∈ xs, c.Fits x) ∧
      (c.putAll xs out r).2 = out ++ xs.flatMap (fun x => Frame.encode (c.turnBody x).2) ∧
      (afterEncoding r (c.putAll xs out r).1).metrics =
        r.metrics.delivered (xs.map fun x => (x.2.body.length, (c.turnBody x).1)) := by
  induction xs generalizing out r with
  | nil => exact ⟨by simp, by simp [putAll], rfl⟩
  | cons y xs ih =>
    obtain ⟨t, x⟩ := y
    simp only [putAll, List.mem_cons, forall_eq_or_imp] at hok
    obtain ⟨hx, hrest⟩ := hok
    obtain ⟨z, hz⟩ : ∃ z, ((c.switch t).putItem out r x).result = .ok z := by
      cases hresult : ((c.switch t).putItem out r x).result with
      | error e =>
        rw [hresult] at hx
        cases hx
      | ok z => exact ⟨z, rfl⟩
    obtain ⟨hne, frame, hw, hl, hout, hm⟩ := putItem_eq_ok hz
    have hbody : c.turnBody (t, x) = (z, frame) := by rw [turnBody, hw]
    obtain ⟨hfits, hwhole, hcount⟩ := ih hrest
    refine ⟨List.forall_mem_cons.mpr ⟨⟨hne, hbody ▸ hw, hbody ▸ hl⟩, hfits⟩, ?_, ?_⟩
    · rw [List.flatMap_cons, hbody, ← List.append_assoc, ← hout]
      exact hwhole
    · rw [hm] at hcount
      rw [List.map_cons, hbody]
      exact hcount

/-- The peer decodes the whole row, and counts every frame body. -/
theorem counts_nextAll (hF : c.maxFrame ≤ maxValue) (hM : c.maxUncompressed ≤ maxValue)
    {xs : List (Int32 × Item)} (hfits : ∀ x ∈ xs, c.Fits x)
    (hz : ∀ x ∈ xs, c.compressor.Restores x.2.body)
    (hp : ∀ x ∈ xs, (Packet.contentOf x.2.body).isOk) (tail : Bytes) (hr : r.Unlimited) :
    let bs := xs.flatMap (fun x => Frame.encode (c.turnBody x).2) ++ tail
    (c.nextAll (xs.map (·.1)) bs r).2 = tail ∧
      (afterDecoding r (c.nextAll (xs.map (·.1)) bs r).1).metrics =
        r.metrics.received (xs.map fun x => ((c.turnBody x).2.length, (c.turnBody x).1)) := by
  induction xs generalizing r with
  | nil => exact ⟨rfl, rfl⟩
  | cons x xs ih =>
    simp only [List.mem_cons, forall_eq_or_imp] at hfits hz hp
    have hw : (c.switch x.1).wrap x.2.body = .ok ((c.turnBody x).1, (c.turnBody x).2) :=
      hfits.1.wrapped
    obtain ⟨hleft, hm⟩ := next_of_wrap (c := c.switch x.1) hF hM hfits.1.hasText hz.1 hp.1 hw
      hfits.1.short
      (xs.flatMap (fun x => Frame.encode (c.turnBody x).2) ++ tail) hr
    have hr' := next_unlimited (c.switch x.1) (Frame.encode (c.turnBody x).2 ++
      (xs.flatMap (fun x => Frame.encode (c.turnBody x).2) ++ tail)) hr
    have hrest := ih hfits.2 hz.2 hp.2 hr'
    rw [hm] at hrest
    simp only [List.flatMap_cons, List.append_assoc, List.map_cons, nextAll]
    rw [hleft]
    exact hrest

/-- What both sides count, if every item is a packet, every encoder succeeds and what is compressed
comes out again. The side that sends counts the bytes of the texts, the one that receives those of
the frame bodies; they are as many without compression. -/
theorem exchange_counts (hF : c.maxFrame ≤ maxValue) (hM : c.maxUncompressed ≤ maxValue)
    {xs : List (Int32 × Item)} (hz : ∀ x ∈ xs, c.compressor.Restores x.2.body)
    (hp : ∀ x ∈ xs, (Packet.contentOf x.2.body).isOk) (r : Reserves)
    (hok : ∀ e ∈ (c.putAll xs [] r).1, e.result.isOk) :
    let sent := c.putAll xs [] r
    let m := (afterEncoding r sent.1).metrics
    sent.2 = xs.flatMap (fun x => Frame.encode (c.turnBody x).2) ∧
    (∀ x ∈ xs, (c.switch x.1).Writes x.2.body (c.turnBody x).1 (c.turnBody x).2) ∧
    m.packetsEncoded = r.metrics.packetsEncoded + .ofNat xs.length ∧
    m.bytesSent = r.metrics.bytesSent + .ofNat (xs.map (·.2.body.length)).sum ∧
    m.compressedSent = r.metrics.compressedSent + .ofNat (xs.countP fun x => (c.turnBody x).1) ∧
    (∀ x z, c.answerTo x = .ok z →
      ∀ {κ : Type} (k : κ) (out staged scratch : Bytes) (r : Reserves),
      let m := r.metrics.packetEncoded x.2.body.length z
      let sender : FrameSender κ := { codec := c.switch x.1, sink := k, reserves := r, scratch }
      ((c.switch x.1).putItem out r x.2).reserves.metrics = m ∧
      (sender.start x.2).2.reserves.metrics = m ∧
      (Outbox.stage { codec := c.switch x.1, staged } x.2 r).2.2.metrics = m) ∧
    (∀ (tail : Bytes) (r' : Reserves), r'.Unlimited →
      let got := c.nextAll (xs.map (·.1)) (sent.2 ++ tail) r'
      let m' := (afterDecoding r' got.1).metrics
      got.2 = tail ∧
      m'.packetsDecoded = r'.metrics.packetsDecoded + .ofNat xs.length ∧
      m'.bytesReceived =
        r'.metrics.bytesReceived + .ofNat (xs.map fun x => (c.turnBody x).2.length).sum ∧
      m'.compressedReceived =
        r'.metrics.compressedReceived + .ofNat (xs.countP fun x => (c.turnBody x).1)) ∧
    ((∀ x ∈ xs, x.1.toInt < 0) →
      (xs.map fun x => (c.turnBody x).2.length).sum = (xs.map (·.2.body.length)).sum) := by
  intro sent m
  obtain ⟨hfits, hwhole, hm⟩ := counts_putAll hok
  rw [List.nil_append] at hwhole
  have hwrites : ∀ x ∈ xs, (c.switch x.1).Writes x.2.body (c.turnBody x).1 (c.turnBody x).2 := by
    intro x hx
    have hM' : (c.switch x.1).maxUncompressed ≤ maxValue := hM
    exact (writes_of_wrap hM' (hfits x hx).wrapped).1
  refine ⟨hwhole, hwrites, ?_, ?_, ?_, fun x z h => counts_of_answer h, fun tail r' hr' => ?_,
    fun hoff => ?_⟩
  · simp only [m, sent, hm, Metrics.packetsEncoded_delivered, List.length_map]
  · simp only [m, sent, hm, Metrics.bytesSent_delivered, List.map_map, Function.comp_def]
  · simp only [m, sent, hm, Metrics.compressedSent_delivered, List.countP_map, Function.comp_def]
  · intro got m'
    obtain ⟨hleft, hm'⟩ := counts_nextAll hF hM hfits hz hp tail hr'
    rw [← hwhole] at hleft hm'
    refine ⟨hleft, ?_, ?_, ?_⟩
    · simp only [m', got, sent, hm', Metrics.packetsDecoded_received, List.length_map]
    · simp only [m', got, sent, hm', Metrics.bytesReceived_received, List.map_map,
        Function.comp_def]
    · simp only [m', got, sent, hm', Metrics.compressedReceived_received, List.countP_map,
        Function.comp_def]
  · refine congrArg List.sum (List.map_congr_left fun x hx => ?_)
    have hneg : (c.switch x.1).threshold.toInt < 0 := hoff x hx
    have hw := hwrites x hx
    generalize c.turnBody x = v at hw
    obtain ⟨z, frame⟩ := v
    cases hw with
    | plain => rfl
    | marked ht => omega
    | packed ht => omega

/-- A packet behind a marker and a text without one: five bytes are sent and six received. -/
theorem exchange_counts_marked :
    let c : Codec := {}
    let xs : List (Int32 × Item) := [(64, .packet ⟨5, [7]⟩), (-1, .raw [6, 1, 2])]
    let sent := c.putAll xs [] {}
    let got := c.nextAll (xs.map (·.1)) (sent.2 ++ [9]) {}
    c.maxFrame ≤ maxValue ∧ c.maxUncompressed ≤ maxValue ∧
      (∀ x ∈ xs, c.compressor.Restores x.2.body) ∧
      (∀ x ∈ xs, (Packet.contentOf x.2.body).isOk) ∧
      (∀ e ∈ sent.1, e.result.isOk) ∧ Reserves.Unlimited {} ∧
      (afterEncoding {} sent.1).metrics.bytesSent = 5 ∧
      (afterDecoding {} got.1).metrics.bytesReceived = 6 := by
  intro c xs sent got
  have hF : c.maxFrame ≤ maxValue := by decide
  have hM : c.maxUncompressed ≤ maxValue := by decide
  have hz : ∀ x ∈ xs, c.compressor.Restores x.2.body := by decide +kernel
  have hp : ∀ x ∈ xs, (Packet.contentOf x.2.body).isOk := by decide +kernel
  have hok : ∀ e ∈ sent.1, e.result.isOk := by decide +kernel
  have hr : Reserves.Unlimited {} := rfl
  obtain ⟨-, -, -, hsent, -, -, hgot, -⟩ := exchange_counts hF hM hz hp {} hok
  obtain ⟨-, -, hreceived, -⟩ := hgot [9] {} hr
  exact ⟨hF, hM, hz, hp, hok, hr, hsent.trans (by decide +kernel),
    hreceived.trans (by decide +kernel)⟩

/-- A frame body of three bytes that is counted as two when it is sent. -/
theorem marker_unsent :
    let c : Codec := { threshold := 64 }
    let e := c.putItem [] {} (.packet ⟨5, [7]⟩)
    let t := c.next e.out {}
    e.result = .ok false ∧ e.out = Frame.encode [0, 5, 7] ∧ t.left = [] ∧
      e.reserves.metrics.bytesSent = 2 ∧ t.reserves.metrics.bytesReceived = 3 := by
  decide +kernel

end PacketWire.Codec
