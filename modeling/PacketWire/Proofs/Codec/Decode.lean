import PacketWire.Codec.Decode
import PacketWire.Proofs.Frame
import PacketWire.Proofs.Packet

/-!
# Decoding apart from the pool

`unpack` is what a frame body comes to before its id is read: the storage of the packet, spare
memory left out. While buffers are never refused, a decoded packet is the one parsed from there,
whatever the pool holds. The paths say what every verdict leaves in the pool, refusals included.
-/

namespace PacketWire.Codec

open Compression VarInt

variable {c : Codec}

/-! ## Layout -/

/-- Where the packet or its compressed bytes begin. -/
def Layout.start : Layout → Nat
  | .raw start => start
  | .packed start _ => start

theorem toInt_pos_of_not {v : Int32} (h0 : ¬ v < 0) (h1 : ¬ v = 0) : 0 < v.toInt := by
  rw [Int32.lt_iff_toInt_lt] at h0
  rw [← Int32.toInt_inj] at h1
  simp only [Int32.toInt_zero] at h0 h1
  omega

theorem layout_eq_raw_iff {body : Bytes} {start : Nat} :
    c.layout body = .ok (.raw start) ↔
      (c.threshold < 0 ∧ start = 0) ∨
      (¬ c.threshold < 0 ∧ ∃ s rest, body = s ++ rest ∧ Numeral32 s 0 ∧ s.length = start) := by
  unfold layout
  split
  · rename_i ht
    simp [ht, eq_comm]
  · rename_i ht
    rw [← scan32_eq_found_iff]
    simp only [ht, false_and, false_or, not_false_eq_true, true_and]
    split
    · simp [*]
    · simp [*]
    · rename_i size used hs
      rw [hs]
      split
      · have : size ≠ 0 := by rintro rfl; simp_all
        simp [this]
      · split
        · simp [*]
        · split
          · simp [*]
          · split <;> simp [*]

theorem layout_eq_packed_iff {body : Bytes} {start size : Nat} :
    c.layout body = .ok (.packed start size) ↔
      ¬ c.threshold < 0 ∧ ∃ s rest v, body = s ++ rest ∧ Numeral32 s v ∧ s.length = start ∧
        v.toInt = size ∧ 1 ≤ size ∧ c.threshold.toInt ≤ size ∧ size ≤ c.maxUncompressed := by
  unfold layout
  constructor
  · intro h
    split at h
    · cases h
    · rename_i ht
      refine ⟨ht, ?_⟩
      split at h
      · cases h
      · cases h
      · rename_i v used hscan
        obtain ⟨s, rest, rfl, hs, rfl⟩ := scan32_eq_found_iff.mp hscan
        split at h
        · cases h
        · split at h
          · cases h
          · rename_i h0 h1
            have hpos := toInt_pos_of_not h0 h1
            split at h
            · cases h
            · rename_i hlt
              rw [Int32.lt_iff_toInt_lt] at hlt
              simp only at h
              split at h
              · cases h
              · cases h
                exact ⟨s, rest, v, rfl, hs, rfl, by omega, by omega, by omega, by omega⟩
  · rintro ⟨ht, s, rest, v, rfl, hs, rfl, hv, h1, hmin, hmax⟩
    have h0 : ¬ v < 0 := by rw [Int32.lt_iff_toInt_lt, Int32.toInt_zero]; omega
    have hz : ¬ v = 0 := by rw [← Int32.toInt_inj, Int32.toInt_zero]; omega
    have hlt : ¬ v < c.threshold := by rw [Int32.lt_iff_toInt_lt]; omega
    have hn : v.toInt.toNat = size := by omega
    simp [ht, scan32_of_numeral hs, h0, hz, hlt, hn, Nat.not_lt.mpr hmax]

theorem layout_start_le {body : Bytes} {l : Layout} (h : c.layout body = .ok l) :
    l.start ≤ body.length := by
  cases l with
  | raw start =>
    obtain ⟨-, rfl⟩ | ⟨-, s, rest, rfl, -, rfl⟩ := layout_eq_raw_iff.mp h
    · exact Nat.zero_le _
    · simp [Layout.start]
  | packed start size =>
    obtain ⟨-, s, rest, v, rfl, -, rfl, -⟩ := layout_eq_packed_iff.mp h
    simp [Layout.start]

/-! ## Unpacking -/

/-- The text that inflating to exactly `size` bytes gives. -/
def inflated (c : Codec) (packed : Bytes) (size : Nat) : Except WireError Bytes :=
  let inflation := c.compressor.inflate packed size
  match inflation.status with
  | .done =>
    if inflation.written.length = size then .ok inflation.written
    else .error (.decompression .sizeMismatch)
  | .outputFull => .error (.decompression .sizeMismatch)
  | .corrupt => .error (.decompression .status)

/-- The storage of the packet in a frame body, before its id is read. -/
def unpack (c : Codec) (body : Bytes) : Except WireError Storage :=
  match c.layout body with
  | .error e => .error e
  | .ok (.raw start) => .ok (.shared (body.drop start))
  | .ok (.packed start size) =>
    (c.inflated (body.drop start) size).map fun text => .pooled { bytes := text }

theorem overwrite_whole {b : Buffer} {bs : Bytes} (h : b.length ≤ bs.length) :
    (b.overwrite 0 bs).bytes = bs := by
  simpa [Buffer.overwrite, Buffer.length] using h

theorem ofPooled_trimmed (r : Reserves) (b : Buffer) :
    (Packet.ofPooled r b 0).1.map Packet.trimmed =
      Packet.parse (.pooled { bytes := b.bytes }) 0 := by
  have := Packet.parse_trimmed (.pooled b) 0
  simp only [Storage.trimmed] at this
  rw [← this]
  unfold Packet.ofPooled
  split <;> simp [*, Except.map]

theorem inflate_of_acquire {packed : Bytes} {size : Nat} {r r' : Reserves} {out : Buffer}
    (ha : r.acquire size = (.ok out, r')) :
    (c.inflate packed size r).1.map Packet.trimmed =
      (c.inflated packed size).bind fun text => Packet.parse (.pooled { bytes := text }) 0 := by
  have hlen := Reserves.length_of_acquire ha
  simp only [inflate, inflated, ha]
  generalize c.compressor.inflate packed size = inflation
  cases hs : inflation.status with
  | done =>
    by_cases hw : inflation.written.length = size
    · simp only [hw, if_true, ofPooled_trimmed]
      rw [overwrite_whole (by omega)]
      rfl
    · simp only [hw, if_false]
      rfl
  | outputFull => rfl
  | corrupt => rfl

theorem inflate_trimmed {packed : Bytes} {size : Nat} {r : Reserves} (hr : r.Unlimited) :
    (c.inflate packed size r).1.map Packet.trimmed =
      (c.inflated packed size).bind fun text => Packet.parse (.pooled { bytes := text }) 0 := by
  obtain ⟨out, r', ha⟩ := hr.acquire size
  exact inflate_of_acquire ha

@[simp] theorem counted_fst (n : Nat) (z : Bool) (x : Except WireError Packet × Reserves) :
    (counted n z x).1 = x.1 := by
  obtain ⟨_ | _, _⟩ := x <;> rfl

theorem decodeBody_trimmed (c : Codec) (body : Bytes) {r : Reserves} (hr : r.Unlimited) :
    (c.decodeBody body r).1.map Packet.trimmed = (c.unpack body).bind (Packet.parse · 0) := by
  unfold decodeBody unpack
  cases c.layout body with
  | error e => rfl
  | ok l =>
    cases l with
    | raw start =>
      simp only [counted_fst]
      exact Packet.parse_trimmed (.shared (body.drop start)) 0
    | packed start size =>
      simp only [counted_fst, inflate_trimmed hr]
      cases c.inflated (body.drop start) size <;> rfl

theorem decodeBody_trimmed_or (c : Codec) (body : Bytes) (r : Reserves) :
    (∃ n, (c.decodeBody body r).1 = .error (.poolExhausted n)) ∨
      (c.decodeBody body r).1.map Packet.trimmed = (c.unpack body).bind (Packet.parse · 0) := by
  unfold decodeBody unpack
  cases c.layout body with
  | error e => exact .inr rfl
  | ok l =>
    cases l with
    | raw start =>
      simp only [counted_fst]
      exact .inr (Packet.parse_trimmed (.shared (body.drop start)) 0)
    | packed start size =>
      simp only [counted_fst]
      match ha : r.acquire size with
      | (.ok out, r') =>
        right
        rw [inflate_of_acquire ha]
        cases c.inflated (body.drop start) size <;> rfl
      | (.error e, r') =>
        obtain ⟨n, rfl⟩ := Reserves.error_of_acquire ha
        exact .inl ⟨n, by simp only [inflate, ha]⟩

theorem content_of_unpacked {body : Bytes} {x : Except WireError Packet}
    (h : x.map Packet.trimmed = (c.unpack body).bind (Packet.parse · 0)) :
    x.map Packet.content = (c.unpack body).bind fun storage => Packet.contentOf storage.bytes := by
  have hc : ∀ x : Except WireError Packet,
      (x.map Packet.trimmed).map Packet.content = x.map Packet.content := by
    rintro (_ | p)
    · rfl
    · simp [Except.map, Packet.content_trimmed]
  rw [← hc, h]
  cases c.unpack body with
  | error e => rfl
  | ok storage => simpa [Except.bind] using Packet.parse_content storage 0

theorem decodeBody_content (c : Codec) (body : Bytes) {r : Reserves} (hr : r.Unlimited) :
    (c.decodeBody body r).1.map Packet.content =
      (c.unpack body).bind fun storage => Packet.contentOf storage.bytes :=
  content_of_unpacked (decodeBody_trimmed c body hr)

/-- A decoded packet says what is in the unpacked storage, whatever the pool. -/
theorem content_of_decodeBody {body : Bytes} {r : Reserves} {p : Packet}
    (h : (c.decodeBody body r).1 = .ok p) :
    (c.unpack body).bind (fun storage => Packet.contentOf storage.bytes) = .ok p.content := by
  obtain ⟨n, hn⟩ | htrimmed := decodeBody_trimmed_or c body r
  · rw [hn] at h
    cases h
  · rw [← content_of_unpacked htrimmed, h]
    rfl

theorem path_inflate {packed : Bytes} {size : Nat} {r r' : Reserves}
    {result : Except WireError Packet} (h : c.inflate packed size r = (result, r')) :
    r.Path (Packet.held result) r' := by
  unfold inflate at h
  split at h
  · rename_i e r1 ha
    cases h
    exact .of_refusal ha
  · rename_i out r1 ha
    have h1 := Reserves.Path.of_acquire ha
    have hout : 0 < r1.pool.outstanding := by
      have := Pool.Path.outstanding h1
      omega
    -- One buffer is out; it stays out in a packet, or goes back.
    have back (b : Buffer) : r.Path 0 (r1.release b) := h1.trans (.release b hout)
    simp only at h
    split at h
    · split at h
      · exact (h1.trans (Packet.path_ofPooled hout h)).cast (by omega)
      · cases h; exact back _
    · cases h; exact back _
    · cases h; exact back _

theorem path_counted {r r1 r' : Reserves} {n : Nat} {z : Bool} {d : Int}
    {x result : Except WireError Packet} (h : counted n z (x, r1) = (result, r'))
    (hp : r.Path d r1) : r.Path d r' ∧ result = x := by
  cases x with
  | ok p => cases h; exact ⟨hp.count _, rfl⟩
  | error e => cases h; exact ⟨hp, rfl⟩

theorem path_decodeBody {body : Bytes} {r r' : Reserves} {result : Except WireError Packet}
    (h : c.decodeBody body r = (result, r')) : r.Path (Packet.held result) r' := by
  unfold decodeBody at h
  split at h
  · cases h
    exact .refl r
  · rename_i start _
    obtain ⟨hp, rfl⟩ := path_counted h (.refl r)
    rwa [Packet.held_ofShared]
  · rename_i start size _
    obtain ⟨hp, rfl⟩ := path_counted h (path_inflate rfl)
    exact hp

/-- The buffer of a frame becomes that of a packet or goes back, never both, and so does a second
one. -/
theorem path_decodePooled {frame : Buffer} {r r' : Reserves} {result : Except WireError Packet}
    (hr : 0 < r.pool.outstanding) (h : c.decodePooled frame r = (result, r')) :
    r.Path (Packet.held result - 1) r' := by
  unfold decodePooled at h
  split at h
  · cases h
    simpa [Packet.held] using Reserves.Path.release frame hr
  · rename_i start _
    obtain ⟨hp, rfl⟩ := path_counted h (Packet.path_ofPooled hr rfl)
    exact hp
  · rename_i start size _
    have hi : r.Path (Packet.held (c.inflate (frame.bytes.drop start) size r).1) _ :=
      path_inflate rfl
    have hout := Pool.Path.outstanding hi
    obtain ⟨hp, rfl⟩ := path_counted h (hi.trans (.release frame (by omega)))
    exact hp

/-- How many buffers a verdict on a byte string owns. -/
def Taken.held (t : Taken) : Nat :=
  match t.result with
  | .ok (some p) => p.buffers
  | _ => 0

theorem path_next (c : Codec) (bs : Bytes) (r : Reserves) :
    r.Path (c.next bs r).held (c.next bs r).reserves := by
  unfold next
  split
  · exact (Reserves.Path.refl r).count _
  · exact .refl r
  · split
    · rename_i p r' h
      exact path_decodeBody h
    · rename_i e r' h
      exact (path_decodeBody h).count _

theorem next_unlimited (c : Codec) (bs : Bytes) {r : Reserves} (hr : r.Unlimited) :
    (c.next bs r).reserves.Unlimited :=
  (path_next c bs r).unlimited hr

/-! ## The first packet of a byte string -/

theorem next_of_take {bs frame rest : Bytes} (r : Reserves)
    (h : Frame.take c.maxFrame bs = .ok (some (frame, rest))) :
    (c.next bs r).result = (c.decodeBody frame r).1.map some ∧ (c.next bs r).left = rest := by
  simp only [next, h]
  obtain ⟨result, r'⟩ := c.decodeBody frame r
  cases result <;> exact ⟨rfl, rfl⟩

theorem next_of_no_take {bs : Bytes} (r : Reserves) (h : Frame.take c.maxFrame bs = .ok none) :
    (c.next bs r).result = .ok none ∧ (c.next bs r).left = bs := by
  simp [next, h]

theorem next_of_refusal {bs : Bytes} {e : WireError} (r : Reserves)
    (h : Frame.take c.maxFrame bs = .error e) :
    (c.next bs r).result = .error e ∧ (c.next bs r).left = bs := by
  simp [next, h]

theorem next_eq_none_iff {bs : Bytes} {r : Reserves} :
    (c.next bs r).result = .ok none ↔ Frame.take c.maxFrame bs = .ok none := by
  constructor
  · intro h
    cases ht : Frame.take c.maxFrame bs with
    | error e => rw [(next_of_refusal r ht).1] at h; cases h
    | ok found =>
      cases found with
      | none => rfl
      | some x =>
        rw [(next_of_take r ht).1] at h
        cases hd : (c.decodeBody x.1 r).1 <;> simp [hd, Except.map] at h
  · exact fun h => (next_of_no_take r h).1

theorem length_left_lt {bs : Bytes} {r : Reserves} {p : Packet}
    (h : (c.next bs r).result = .ok (some p)) : (c.next bs r).left.length < bs.length := by
  cases ht : Frame.take c.maxFrame bs with
  | error e => rw [(next_of_refusal r ht).1] at h; cases h
  | ok found =>
    cases found with
    | none => rw [(next_of_no_take r ht).1] at h; cases h
    | some x =>
      rw [(next_of_take r ht).2]
      exact Frame.length_rest_lt ht

/-- The verdict with spare memory left out. -/
def Taken.trimmed (t : Taken) : Except WireError (Option Packet) :=
  t.result.map (Option.map Packet.trimmed)

theorem next_append_of_body {bs : Bytes} {r r' : Reserves} (h : (c.next bs r).result ≠ .ok none)
    (hbody : ∀ body rest, Frame.take c.maxFrame bs = .ok (some (body, rest)) →
      (c.decodeBody body r').1.map Packet.trimmed = (c.decodeBody body r).1.map Packet.trimmed)
    (more : Bytes) :
    (c.next (bs ++ more) r').trimmed = (c.next bs r).trimmed ∧
      (c.next (bs ++ more) r').left = (c.next bs r).left ++ more := by
  cases ht : Frame.take c.maxFrame bs with
  | error e =>
    obtain ⟨h1, h2⟩ := next_of_refusal r ht
    obtain ⟨h1', h2'⟩ := next_of_refusal r' (Frame.take_append_of_error ht more)
    exact ⟨by rw [Taken.trimmed, Taken.trimmed, h1, h1'], by rw [h2, h2']⟩
  | ok found =>
    cases found with
    | none => exact absurd (next_eq_none_iff.mpr ht) h
    | some x =>
      obtain ⟨h1, h2⟩ := next_of_take r ht
      obtain ⟨h1', h2'⟩ := next_of_take r' (Frame.take_append_of_some ht more)
      refine ⟨?_, by rw [h2, h2']⟩
      have hm (y : Except WireError Packet) : (y.map some).map (Option.map Packet.trimmed) =
          (y.map Packet.trimmed).map some := by
        cases y <;> rfl
      rw [Taken.trimmed, Taken.trimmed, h1, h1', hm, hm, hbody _ _ ht]

/-- A verdict stands whatever the pool holds and whatever bytes come behind. -/
theorem next_append {bs : Bytes} {r r' : Reserves} (hr : r.Unlimited) (hr' : r'.Unlimited)
    (h : (c.next bs r).result ≠ .ok none) (more : Bytes) :
    (c.next (bs ++ more) r').trimmed = (c.next bs r).trimmed ∧
      (c.next (bs ++ more) r').left = (c.next bs r).left ++ more :=
  next_append_of_body h
    (fun body _ _ => by rw [decodeBody_trimmed c body hr', decodeBody_trimmed c body hr]) more

theorem next_append_of_limited {bs : Bytes} {r r' : Reserves} (hr' : r'.Unlimited)
    (h : (c.next bs r).result ≠ .ok none)
    (hpool : ∀ n, (c.next bs r).result ≠ .error (.poolExhausted n)) (more : Bytes) :
    (c.next (bs ++ more) r').trimmed = (c.next bs r).trimmed ∧
      (c.next (bs ++ more) r').left = (c.next bs r).left ++ more := by
  refine next_append_of_body h (fun body rest ht => ?_) more
  rw [decodeBody_trimmed c body hr']
  obtain ⟨n, hn⟩ | hbody := decodeBody_trimmed_or c body r
  · refine absurd ?_ (hpool n)
    rw [(next_of_take r ht).1, hn]
    rfl
  · exact hbody.symm

theorem next_append_of_packet {bs : Bytes} {r r' : Reserves} {p : Packet} (hr' : r'.Unlimited)
    (h : (c.next bs r).result = .ok (some p)) (more : Bytes) :
    ∃ p', (c.next (bs ++ more) r').result = .ok (some p') ∧ p'.trimmed = p.trimmed ∧
      (c.next (bs ++ more) r').left = (c.next bs r).left ++ more := by
  obtain ⟨ht, hl⟩ :=
    next_append_of_limited hr' (by rw [h]; simp) (fun n => by rw [h]; simp) more
  rw [Taken.trimmed, Taken.trimmed, h] at ht
  match hx : (c.next (bs ++ more) r').result with
  | .error e => simp [hx, Except.map] at ht
  | .ok none => simp [hx, Except.map] at ht
  | .ok (some p') => exact ⟨p', rfl, by simpa [hx, Except.map] using ht, hl⟩

theorem Taken.refusal_of_trimmed {t t' : Taken} {e : WireError} (h : t'.trimmed = t.trimmed)
    (ht : t.result = .error e) : t'.result = .error e := by
  rw [Taken.trimmed, Taken.trimmed, ht] at h
  cases hx : t'.result with
  | error e' => simpa [hx, Except.map] using h
  | ok found => simp [hx, Except.map] at h

theorem next_append_of_refusal {bs : Bytes} {r r' : Reserves} {e : WireError} (hr : r.Unlimited)
    (hr' : r'.Unlimited) (h : (c.next bs r).result = .error e) (more : Bytes) :
    (c.next (bs ++ more) r').result = .error e :=
  Taken.refusal_of_trimmed (next_append hr hr' (by rw [h]; simp) more).1 h

theorem next_append_of_limited_refusal {bs : Bytes} {r r' : Reserves} {e : WireError}
    (hr' : r'.Unlimited) (h : (c.next bs r).result = .error e)
    (hpool : ∀ n, e ≠ .poolExhausted n) (more : Bytes) :
    (c.next (bs ++ more) r').result = .error e := by
  refine Taken.refusal_of_trimmed
    (next_append_of_limited hr' (by rw [h]; simp) (fun n => ?_) more).1 h
  rw [h]
  exact fun he => hpool n (Except.error.inj he)

end PacketWire.Codec
