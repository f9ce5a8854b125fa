import Mathlib.Control.Monad.Basic
import PacketWire.Proofs.Endpoint.Driving
import PacketWire.Proofs.Readers

/-!
# How many buffers a read takes

A read takes the buffer for its body before it reads it, and a compressed body is inflated into
another one before that goes back. So where taking a frame out of a byte string gives a packet, with
one buffer of a limited pool to be had, reading the frame gives the packet too, unless the body is
compressed and that buffer was the last (`FrameRead.reads_with_slots`).
-/

namespace PacketWire

open VarInt

namespace FrameRead

variable {σ : Type} [Source σ] {c : Codec} {f : FrameRead} {s s' : σ} {r r' : Reserves}
  {buffer : Buffer} {body : Bytes}

/-- What the body of a frame comes to once it is read into a buffer. -/
def decoded (c : Codec) (buffer : Buffer) (body : Bytes) (s : σ) (r : Reserves) :
    Except WireError Packet × σ × Reserves :=
  match c.decodePooled (buffer.overwrite 0 body) r with
  | (.ok p, r) => (.ok p, s, r)
  | (.error e, r) => (.error e, (fail e s r).2)

/-- The buffer for a body of `n` bytes: a read has it already, or takes it. -/
def buffered (f : FrameRead) (n : Nat) (r : Reserves) : Except WireError Buffer × Reserves :=
  match f with
  | .length _ => r.acquire n
  | .body buffer _ => (.ok buffer, r)

theorem pollBody_of_whole (h : body.length = buffer.length) (s : σ) (r : Reserves) :
    pollBody c buffer body s r =
      ((.done (decoded c buffer body s r).1), (decoded c buffer body s r).2) := by
  simp only [pollBody, readExact_of_enough (Nat.le_of_eq h.symm), decoded]
  rcases c.decodePooled (buffer.overwrite 0 body) r with ⟨_ | _, r'⟩ <;> rfl

theorem finish_congr {f' : FrameRead} (h : poll c f s r = poll c f' s' r') (n : Nat) :
    finish (fun f (s, r) => poll c f s r) (n + 1) f (s, r) =
      finish (fun f (s, r) => poll c f s r) (n + 1) f' (s', r') := by
  simp only [finish, drive, h]

/-- However the rest of a frame is supplied, a read comes to what its body comes to. -/
theorem finish_of_serves {g : Poll (Except IoError Bytes) × σ} {w : Bytes} (h : Serves g w) :
    ∀ {f : FrameRead} {p : Bytes} {s : σ} {r : Reserves}, Holds c f p → Source.read f.room s = g →
      Frame.take c.maxFrame (p ++ w) = .ok (some (body, [])) →
      f.buffered body.length r = (.ok buffer, r') →
      ∃ n s', finish (fun f (s, r) => poll c f s r) (n + 1) f (s, r) =
        some (decoded c buffer body s' r') := by
  induction h with
  | @pending s₁ w _ ih =>
    intro f p s r hf hs ht hbuffer
    obtain ⟨n, s', hn⟩ := ih f.room hf.room_pos (hf.room_le ht) hf rfl ht hbuffer
    exact ⟨n + 1, s', by rwa [finish_of_waiting (poll_of_pause c hf hs r)]⟩
  | @disturbed s₁ e w he _ ih =>
    intro f p s r hf hs ht hbuffer
    obtain ⟨n, s', hn⟩ := ih f.room hf.room_pos (hf.room_le ht) hf rfl ht hbuffer
    exact ⟨n, s', by rwa [finish_congr (poll_of_disturbance c hf hs he r)]⟩
  | @data s₁ b bs w _ ih =>
    intro f p s r hf hs ht hbuffer
    have hgo {f' : FrameRead} {p' : Bytes} {r₁ : Reserves} (hf' : Holds c f' p')
        (hp' : p' = p ++ b :: bs) (hpoll : poll c f s r = poll c f' s₁ r₁)
        (hbuffer : f'.buffered body.length r₁ = (.ok buffer, r')) :
        ∃ n s', finish (fun f (s, r) => poll c f s r) (n + 1) f (s, r) =
          some (decoded c buffer body s' r') := by
      have ht' : Frame.take c.maxFrame (p' ++ w) = .ok (some (body, [])) := by
        rwa [hp', List.append_assoc]
      obtain ⟨n, s', hn⟩ := ih f'.room hf'.room_pos (hf'.room_le ht') hf' rfl ht' hbuffer
      exact ⟨n, s', by rwa [finish_congr hpoll]⟩
    cases hf with
    | @length n p hn hp =>
      obtain ⟨rfl, -⟩ := readByte_of_data hs
      rw [← List.append_assoc] at ht
      by_cases hb : b.toNat < 128
      · have hv := hp.numeral hn hb
        cases hl : Frame.checkLength c.maxFrame (Int32.ofNat (n.add b).value) with
        | error e =>
          rw [Frame.take_of_numeral hv hl] at ht
          cases ht
        | ok m =>
          have hm : body.length = m := (Frame.take_behind_numeral hv hl ht).2
          have hlength : buffer.length = body.length := Reserves.length_of_acquire hbuffer
          have hpos : 1 ≤ m := (Frame.checkLength_eq_ok_iff.mp hl).2.1
          have hbody : Holds c (.body buffer []) (p ++ [b] ++ []) :=
            .body hv (by rw [hl, hlength, hm]) (by rw [List.length_nil]; omega)
          have hacquire : r.acquire m = (.ok buffer, r') := hm ▸ hbuffer
          refine hgo hbody (List.append_nil _) ?_ rfl
          rw [poll_of_last c hn hs hb]
          simp only [pollSized, hl, hacquire, poll]
      · have hp' := hp.add hn (Nat.not_lt.mp hb)
        by_cases hfull : (n.add b).groups < maxLength32
        · exact hgo (.length hfull hp') rfl (poll_of_more c hn hs (Nat.not_lt.mp hb) r) hbuffer
        · rw [take_of_full hp' (Nat.not_lt.mp hfull)] at ht
          cases ht
    | @body v buffer' head got hv hl hg =>
      obtain ⟨rfl, rfl⟩ : buffer' = buffer ∧ r = r' := by simpa [buffered] using hbuffer
      have hpoll := poll_of_piece c hg hs r
      rw [List.append_assoc] at ht
      obtain ⟨hsum, hlength⟩ := Frame.take_behind_numeral hv hl ht
      rw [List.append_nil] at hsum
      cases w with
      | nil =>
        have hwhole : got ++ b :: bs = body := by simpa using hsum
        rw [hwhole] at hpoll
        have hdone := hpoll.trans (pollBody_of_whole hlength s₁ r)
        exact ⟨0, s₁, finish_of_done hdone 0⟩
      | cons b' w =>
        have hless : (got ++ b :: bs).length < buffer'.length := by
          have hsum := congrArg List.length hsum
          simp only [List.length_append, List.length_cons] at hsum ⊢
          omega
        exact hgo (.body hv hl hless) (List.append_assoc ..).symm hpoll rfl

omit [Source σ] in
theorem decoded_fst (c : Codec) (buffer : Buffer) (body : Bytes) (s : σ) (r : Reserves) :
    (decoded c buffer body s r).1 = (c.decodePooled (buffer.overwrite 0 body) r).1 := by
  unfold decoded
  rcases c.decodePooled (buffer.overwrite 0 body) r with ⟨_ | _, r'⟩ <;> rfl

/-- With one buffer to be had, reading a frame gives the packet that can be taken out of the same
byte string, however its bytes come. Only for a compressed body is the pool exhausted, if there is
no second buffer. -/
theorem reads_with_slots (c : Codec) {frame body : Bytes} {r : Reserves} {p : Packet} {s : σ}
    (hfree : r.pool.outstanding < r.pool.maxOutstanding)
    (hframe : Frame.take c.maxFrame frame = .ok (some (body, [])))
    (hnext : (c.next frame r).result = .ok (some p)) (hs : Supplies s frame) :
    ∃ n result s' r',
      (∀ m, n ≤ m →
        drive (fun f (s, r) => poll c f s r) m .start (s, r) = (.done result, s', r')) ∧
      r'.pool.outstanding = r.pool.outstanding + Packet.held result ∧
      if c.packs body = true ∧ r.pool.outstanding + 1 = r.pool.maxOutstanding then
        result = .error (.poolExhausted r.pool.maxOutstanding)
      else ∃ q, result = .ok q ∧ q.content = p.content := by
  have hsays : (c.unpack body).bind (fun storage => Packet.contentOf storage.bytes) =
      .ok p.content := by
    rw [(Codec.next_of_take r hframe).1] at hnext
    refine Codec.content_of_decodeBody (r := r) ?_
    cases hd : (c.decodeBody body r).1 <;> rw [hd] at hnext <;> cases hnext
    rfl
  have hnot : ¬ r.pool.exhausted := fun h => Nat.not_lt.mpr h.2 hfree
  obtain ⟨buffer, r₁, ha⟩ := Reserves.acquire_of_not_exhausted hnot body.length
  obtain ⟨n, s', hn⟩ := finish_of_serves (hs 1 Nat.one_pos ((Holds.start c).room_le hframe))
    (.start c) rfl hframe ha
  have hbytes : (buffer.overwrite 0 body).bytes = body :=
    Codec.overwrite_whole (Nat.le_of_eq (Reserves.length_of_acquire ha))
  obtain ⟨-, hout, hmax⟩ := Pool.of_acquire_eq_ok (Reserves.pool_of_acquire ha)
  have hresult := decoded_fst c buffer body s' r₁
  generalize decoded c buffer body s' r₁ = answer at hn hresult
  obtain ⟨result, s₂, r₂⟩ := answer
  obtain rfl : result = (c.decodePooled (buffer.overwrite 0 body) r₁).1 := hresult
  refine ⟨n + 1, _, s₂, r₂, fun m hm => finish_eq_some_iff.mp (finish_mono hn hm), ?_, ?_⟩
  · have hpath := path_drive (c := c) (f := .start) (s := s) (r := r) (Nat.zero_le _) (n + 1)
    rw [finish_eq_some_iff.mp hn] at hpath
    have hcount := Pool.Path.outstanding hpath
    simp only [heldBy, buffers, holdsBuffer, start, Bool.false_eq_true, if_false] at hcount
    omega
  · split
    · rename_i hlast
      rw [Codec.decodePooled_of_exhausted (by rw [hbytes, hlast.1]) ⟨by omega, by omega⟩, hout,
        hlast.2]
    · rename_i hmore
      have hcontent := c.decodePooled_content_of_free (buffer.overwrite 0 body) (r := r₁)
        fun hz h => hmore ⟨hbytes ▸ hz, by have := h.2; omega⟩
      rw [hbytes, hsays] at hcontent
      cases hd : (c.decodePooled (buffer.overwrite 0 body) r₁).1 with
      | error e =>
        rw [hd] at hcontent
        cases hcontent
      | ok q =>
        rw [hd] at hcontent
        exact ⟨q, rfl, Except.ok.inj hcontent⟩

/-- A compressed frame in pieces, with another behind it, and two buffers to be had. -/
theorem reads_with_slots_compressed :
    let c : Codec := { threshold := 2, compressor := Compression.Kind.zlib.compressor 0 }
    let frame : Bytes := [14, 2, 120, 1, 1, 2, 0, 253, 255, 5, 9, 0, 21, 0, 15]
    let r : Reserves := { pool := Pool.withLimits 0 1024 2 }
    let s : Script :=
      { reads := [.data (frame.take 4), .pending, .data (frame.drop 4 ++ [1, 7])] }
    r.pool.outstanding < r.pool.maxOutstanding ∧ Supplies s frame ∧
      ∃ n q s' r',
        (∀ m, n ≤ m →
          drive (fun f (s, r) => poll c f s r) m .start (s, r) = (.done (.ok q), s', r')) ∧
        q.content = { id := 5, payload := [9], body := [5, 9] } := by
  intro c frame r s
  have hfree : r.pool.outstanding < r.pool.maxOutstanding := by decide
  have hfeeds : Feeds s (frame ++ [1, 7]) .closed :=
    Script.feeds s.reads [] (by decide) rfl s rfl rfl
  have hs : Supplies s frame := hfeeds.supplies
  have hframe : Frame.take c.maxFrame frame = .ok (some (frame.drop 1, [])) := by decide +kernel
  have hnext : (c.next frame r).result =
      .ok (some ⟨5, .pooled { bytes := [5, 9], capacity := 8 }, 0, 1⟩) := by decide +kernel
  obtain ⟨n, result, s', r', hdrive, -, hif⟩ := reads_with_slots c hfree hframe hnext hs
  rw [if_neg (by decide +kernel)] at hif
  obtain ⟨q, rfl, hq⟩ := hif
  exact ⟨hfree, hs, n, q, s', r', hdrive, hq⟩

/-- The same frame gives a packet out of a byte string, and finds the pool exhausted when it is
read. -/
theorem last_slot_not_enough :
    let c : Codec := { threshold := 2, compressor := Compression.Kind.zlib.compressor 0 }
    let frame : Bytes := [14, 2, 120, 1, 1, 2, 0, 253, 255, 5, 9, 0, 21, 0, 15]
    let r : Reserves := { pool := Pool.withLimits 0 1024 1 }
    let s : Script := { reads := [.data frame] }
    r.pool.outstanding < r.pool.maxOutstanding ∧
      (c.next frame r).result =
        .ok (some ⟨5, .pooled { bytes := [5, 9], capacity := 8 }, 0, 1⟩) ∧
      (drive (fun f (s, r) => poll c f s r) 1 .start (s, r)).1 =
        .done (.error (.poolExhausted 1)) := by
  decide +kernel

end FrameRead

end PacketWire
