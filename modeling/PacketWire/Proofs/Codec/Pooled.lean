import PacketWire.Proofs.Codec.Decode
import PacketWire.Proofs.Metrics

/-!
# Frame bodies in pooled buffers

A frame body can lie in shared memory or in a buffer of the pool. While buffers are never refused,
both decode to packets that say the same, or are refused for the same reason, and count the same.
The buffer becomes the packet's own exactly when the body is not compressed (`Codec.packs`): else
the packet gets a buffer that was handed out for it, and the frame's goes back.
-/

namespace PacketWire

theorem Packet.content_of_trimmed (x : Except WireError Packet) :
    (x.map trimmed).map content = x.map content := by
  cases x with
  | error e => rfl
  | ok p => exact congrArg Except.ok p.content_trimmed

namespace Codec

variable {c : Codec} {frame : Buffer} {r r' : Reserves}

def packs (c : Codec) (body : Bytes) : Bool :=
  match c.layout body with
  | .ok (.packed ..) => true
  | _ => false

theorem decodePooled_content_of_free (c : Codec) (frame : Buffer) {r : Reserves}
    (hfree : c.packs frame.bytes = true → ¬ r.pool.exhausted) :
    (c.decodePooled frame r).1.map Packet.content =
      (c.unpack frame.bytes).bind fun storage => Packet.contentOf storage.bytes := by
  unfold decodePooled unpack
  unfold packs at hfree
  cases hl : c.layout frame.bytes with
  | error e => rfl
  | ok l =>
    cases l with
    | raw start =>
      have h := Packet.parse_content (.pooled frame) start
      simp only [counted_fst, Packet.ofPooled]
      cases hp : Packet.parse (.pooled frame) start <;> rw [hp] at h <;> exact h
    | packed start size =>
      rw [hl] at hfree
      obtain ⟨out, r', ha⟩ := Reserves.acquire_of_not_exhausted (hfree rfl) size
      simp only [counted_fst]
      rw [← Packet.content_of_trimmed, inflate_of_acquire ha]
      cases c.inflated (frame.bytes.drop start) size with
      | error e => rfl
      | ok text => exact Packet.parse_content (.pooled { bytes := text }) 0

/-- A frame in a pooled buffer says what its bytes say. -/
theorem decodePooled_content (c : Codec) (frame : Buffer) {r r' : Reserves} (hr : r.Unlimited)
    (hr' : r'.Unlimited) : (c.decodePooled frame r).1.map Packet.content =
      (c.decodeBody frame.bytes r').1.map Packet.content := by
  rw [decodeBody_content c frame.bytes hr']
  exact c.decodePooled_content_of_free frame fun _ => Pool.not_exhausted_of_no_limit hr

/-- A compressed frame in the last buffer of its pool is refused for want of another. -/
theorem decodePooled_of_exhausted (hz : c.packs frame.bytes = true) (h : r.pool.exhausted) :
    (c.decodePooled frame r).1 = .error (.poolExhausted r.pool.outstanding) := by
  unfold packs at hz
  unfold decodePooled
  split at hz
  · rename_i start size hl
    have ha := Reserves.acquire_of_exhausted h size
    rw [hl]
    simp only [counted_fst, inflate]
    split <;> rename_i hacquired <;> rw [hacquired] at ha
    · exact congrArg Except.error (Except.error.inj ha)
    · cases ha
  · cases hz

theorem decodePooled_unlimited (c : Codec) (frame : Buffer) {r : Reserves} (hr : r.Unlimited) :
    (c.decodePooled frame r).2.Unlimited := by
  have hcount (n : Nat) (z : Bool) {x : Except WireError Packet × Reserves}
      (hx : x.2.Unlimited) : (counted n z x).2.Unlimited := by
    obtain ⟨_ | _, _⟩ := x <;> exact hx
  unfold decodePooled
  split
  · exact hr
  · refine hcount _ _ ?_
    unfold Packet.ofPooled
    split <;> exact hr
  · rename_i start size _
    have hi : (c.inflate (frame.bytes.drop start) size r).2.Unlimited :=
      (path_inflate rfl).unlimited hr
    exact hcount _ _ hi

/-! ## What is counted -/

/-- The counters after a verdict on a frame body of `length` bytes. -/
def tallied (length : Nat) (compressed : Bool) (m : Metrics) : Except WireError Packet → Metrics
  | .ok _ => m.packetDecoded length compressed
  | .error _ => m

theorem metrics_counted (n : Nat) (z : Bool) (x : Except WireError Packet × Reserves) :
    (counted n z x).2.metrics = tallied n z x.2.metrics x.1 := by
  obtain ⟨_ | _, _⟩ := x <;> rfl

theorem metrics_ofPooled (r : Reserves) (b : Buffer) (start : Nat) :
    (Packet.ofPooled r b start).2.metrics = r.metrics := by
  unfold Packet.ofPooled
  split <;> rfl

theorem metrics_inflate (packed : Bytes) (size : Nat) (hr : r.Unlimited) :
    (c.inflate packed size r).2.metrics = r.metrics := by
  obtain ⟨out, r1, ha⟩ := hr.acquire size
  rw [← Reserves.metrics_of_acquire ha]
  simp only [inflate, ha]
  split
  · split
    · exact metrics_ofPooled r1 _ 0
    · rfl
  · rfl
  · rfl

theorem metrics_decodeBody (c : Codec) (body : Bytes) (hr : r.Unlimited) :
    (c.decodeBody body r).2.metrics =
      tallied body.length (c.packs body) r.metrics (c.decodeBody body r).1 := by
  unfold decodeBody packs
  cases c.layout body with
  | error e => rfl
  | ok l =>
    cases l with
    | raw start => simp only [metrics_counted, counted_fst]
    | packed start size => simp only [metrics_counted, counted_fst, metrics_inflate _ _ hr]

theorem metrics_decodePooled (c : Codec) (frame : Buffer) (hr : r.Unlimited) :
    (c.decodePooled frame r).2.metrics =
      tallied frame.length (c.packs frame.bytes) r.metrics (c.decodePooled frame r).1 := by
  unfold decodePooled packs
  cases c.layout frame.bytes with
  | error e => rfl
  | ok l =>
    cases l with
    | raw start => simp only [metrics_counted, counted_fst, metrics_ofPooled]
    | packed start size =>
      simp only [metrics_counted, counted_fst, Reserves.release, metrics_inflate _ _ hr]

theorem tallied_sub {x y : Except WireError Packet}
    (h : x.map Packet.content = y.map Packet.content) (n : Nat) (z : Bool) (m m' : Metrics) :
    ∀ counter ∈ [Metrics.packetsDecoded, Metrics.bytesReceived, Metrics.compressedReceived],
      counter (tallied n z m x) - counter m = counter (tallied n z m' y) - counter m' := by
  have hsub (a b k : UInt64) : a + k - a = b + k - b := by
    rw [Metrics.add_sub_self, Metrics.add_sub_self]
  cases x with
  | error e =>
    cases y with
    | error e' => simp [tallied]
    | ok q => cases h
  | ok p =>
    cases y with
    | error e' => cases h
    | ok q => simp [tallied, Metrics.packetDecoded, hsub m.packetsDecoded m'.packetsDecoded,
        hsub m.bytesReceived m'.bytesReceived, hsub m.compressedReceived m'.compressedReceived]

/-! ## Who has the buffer -/

theorem pool_counted (n : Nat) (z : Bool) (x : Except WireError Packet × Reserves) :
    (counted n z x).2.pool = x.2.pool := by
  obtain ⟨_ | _, _⟩ := x <;> rfl

theorem ofPooled_eq_ok {b : Buffer} {start : Nat} {p : Packet}
    (h : (Packet.ofPooled r b start).1 = .ok p) :
    p.storage = .pooled b ∧ p.start = start ∧ (Packet.ofPooled r b start).2 = r := by
  unfold Packet.ofPooled at h ⊢
  split <;> rename_i hp
  · rw [hp] at h
    cases h
    refine ⟨Packet.parse_storage hp, ?_, rfl⟩
    unfold Packet.parse at hp
    split at hp <;> cases hp
    rfl
  · rw [hp] at h
    cases h

theorem inflate_eq_ok {packed : Bytes} {size : Nat} {p : Packet}
    (h : (c.inflate packed size r).1 = .ok p) :
    ∃ out, r.acquire p.body.length = (.ok out, (c.inflate packed size r).2) ∧
      p.storage = .pooled { out with bytes := p.body } := by
  rcases ha : r.acquire size with ⟨e | out, r1⟩
  · simp only [inflate, ha] at h
    cases h
  · have hlen := Reserves.length_of_acquire ha
    simp only [inflate, ha] at h ⊢
    revert h
    generalize c.compressor.inflate packed size = inflation
    intro h
    split at h
    · split at h
      · rename_i hw
        obtain ⟨hstorage, hstart, hr1⟩ := ofPooled_eq_ok h
        have hbytes : (out.overwrite 0 inflation.written).bytes = inflation.written :=
          overwrite_whole (by omega)
        have hbody : p.body = inflation.written := by
          rw [Packet.body, hstart, hstorage, List.drop_zero, Storage.bytes, hbytes]
        simp only [hw, if_true, hr1, hbody]
        exact ⟨out, ha, hstorage.trans
          (congrArg (fun bs => Storage.pooled { out with bytes := bs }) hbytes)⟩
      · cases h
    · cases h
    · cases h

variable {p : Packet}

theorem buffer_of_plain (hz : c.packs frame.bytes = false)
    (h : (c.decodePooled frame r).1 = .ok p) :
    p.storage = .pooled frame ∧ (c.decodePooled frame r).2.pool = r.pool := by
  unfold packs at hz
  unfold decodePooled at h ⊢
  cases hl : c.layout frame.bytes with
  | error e =>
    rw [hl] at h
    cases h
  | ok l =>
    cases l with
    | raw start =>
      simp only [hl, counted_fst] at h
      obtain ⟨hstorage, -, hr⟩ := ofPooled_eq_ok h
      exact ⟨hstorage, by simp only [pool_counted, hr]⟩
    | packed start size =>
      rw [hl] at hz
      cases hz

/-- A packet that is compressed gets another, and the buffer of its frame goes back. -/
theorem buffer_of_packed (hz : c.packs frame.bytes = true)
    (h : (c.decodePooled frame r).1 = .ok p) :
    ∃ out pool, r.pool.acquire p.body.length = .ok (out, pool) ∧
      p.storage = .pooled { out with bytes := p.body } ∧
      (c.decodePooled frame r).2.pool = pool.release frame := by
  unfold packs at hz
  unfold decodePooled at h ⊢
  cases hl : c.layout frame.bytes with
  | error e =>
    rw [hl] at h
    cases h
  | ok l =>
    cases l with
    | raw start =>
      rw [hl] at hz
      cases hz
    | packed start size =>
      simp only [hl, counted_fst] at h
      obtain ⟨out, ha, hstorage⟩ := inflate_eq_ok h
      refine ⟨out, _, Reserves.pool_of_acquire ha, hstorage, ?_⟩
      simp only [pool_counted, Reserves.release]

/-- Packets in pooled buffers and in shared memory say the same, and so do errors and counters. Only
the buffer of the packet stays out: that of the frame exactly when the body is not compressed. -/
theorem decodePooled_agrees (c : Codec) (frame : Buffer) {r r' : Reserves} (hr : r.Unlimited)
    (hr' : r'.Unlimited) (hout : 0 < r.pool.outstanding) :
    let pooled := c.decodePooled frame r
    let shared := c.decodeBody frame.bytes r'
    pooled.1.map Packet.content = shared.1.map Packet.content ∧
    (∀ p q s s', pooled.1 = .ok p → shared.1 = .ok q →
      (p.intoPayload s).1 = (q.intoPayload s').1) ∧
    (∀ counter ∈ [Metrics.packetsDecoded, Metrics.bytesReceived, Metrics.compressedReceived],
      counter pooled.2.metrics - counter r.metrics =
        counter shared.2.metrics - counter r'.metrics) ∧
    pooled.2.pool.outstanding + 1 = r.pool.outstanding + Packet.held pooled.1 ∧
    (∀ p, pooled.1 = .ok p → c.packs frame.bytes = false →
      p.storage = .pooled frame ∧ pooled.2.pool = r.pool) ∧
    (∀ p, pooled.1 = .ok p → c.packs frame.bytes = true →
      ∃ out pool, r.pool.acquire p.body.length = .ok (out, pool) ∧
        p.storage = .pooled { out with bytes := p.body } ∧
        pooled.2.pool = pool.release frame) := by
  intro pooled shared
  have hcontent := c.decodePooled_content frame hr hr'
  refine ⟨hcontent, fun p q s s' hp hq => ?_, ?_, ?_, fun p hp hz => buffer_of_plain hz hp,
    fun p hp hz => buffer_of_packed hz hp⟩
  · have hsame : Except.map Packet.content (.ok p) = Except.map Packet.content (.ok q) :=
      hp ▸ hq ▸ hcontent
    exact congrArg Content.payload (Except.ok.inj hsame)
  · rw [metrics_decodePooled c frame hr, metrics_decodeBody c frame.bytes hr']
    exact tallied_sub hcontent _ _ _ _
  · have hpath := Pool.Path.outstanding (path_decodePooled hout (Prod.eta pooled).symm)
    omega

/-- A compressed body comes out of its buffer into another. -/
theorem decodePooled_agrees_compressed :
    let c : Codec := { threshold := 2, compressor := Compression.Kind.zlib.compressor 0 }
    let frame : Buffer :=
      { bytes := [2, 120, 1, 1, 2, 0, 253, 255, 5, 9, 0, 21, 0, 15], capacity := 16 }
    let r : Reserves := { pool := { outstanding := 1 } }
    let pooled := c.decodePooled frame r
    r.Unlimited ∧ Reserves.Unlimited {} ∧ 0 < r.pool.outstanding ∧
      c.packs frame.bytes = true ∧ (pooled.1.map Packet.body).toOption = some [5, 9] ∧
      pooled.1.map Packet.content = (c.decodeBody frame.bytes {}).1.map Packet.content ∧
      pooled.2.pool.outstanding = 1 := by
  intro c frame r pooled
  have hr : r.Unlimited := rfl
  have hr' : Reserves.Unlimited {} := rfl
  have hout : 0 < r.pool.outstanding := by decide
  obtain ⟨hcontent, -, -, hcount, -⟩ := c.decodePooled_agrees frame hr hr' hout
  have hheld : Packet.held (c.decodePooled frame r).1 = 1 := by decide +kernel
  refine ⟨hr, hr', hout, by decide +kernel, by decide +kernel, hcontent, ?_⟩
  exact Nat.succ.inj (hcount.trans (congrArg (r.pool.outstanding + ·) hheld))

end Codec

end PacketWire
