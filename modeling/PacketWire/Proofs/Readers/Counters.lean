import Mathlib.Control.Monad.Basic
import PacketWire.Proofs.Codec.Refusal
import PacketWire.Proofs.Metrics
import PacketWire.Proofs.Readers

/-!
# What both readers count

`Codec.front` is what a reader makes of all that is left of a stream: the body of a first frame that
is a packet, or the error that ends the reading, a clean end among them. `Codec.account` goes on
from there to the end, and notes the frames that count. Both readers count those. They differ in
which errors they count: the one that pulls its frames counts all but a clean end, and a stream
counts only what decoding refuses, so not that its source ended inside a frame.
-/

namespace PacketWire

open VarInt

namespace Codec

/-- What the packet in a frame body says, or why the body is refused. -/
def said (c : Codec) (body : Bytes) : Except WireError Content :=
  (c.unpack body).bind fun storage => Packet.contentOf storage.bytes

/-- The body of the first frame of `bs` and what is behind it, if that is a packet, or why reading
ends here. -/
def front (c : Codec) (bs : Bytes) : Except WireError (Bytes × Bytes) :=
  match Frame.take c.maxFrame bs with
  | .error e => .error e
  | .ok none => .error (if bs.isEmpty then .connectionClosed else .unexpectedEndOfStream)
  | .ok (some (body, rest)) => (c.said body).map fun _ => (body, rest)

variable {c : Codec} {bs body rest : Bytes} {e : WireError} {r : Reserves}

theorem take_of_front (h : c.front bs = .ok (body, rest)) :
    Frame.take c.maxFrame bs = .ok (some (body, rest)) ∧ ∃ x, c.said body = .ok x := by
  unfold front at h
  split at h
  · cases h
  · cases h
  · rename_i body' rest' ht
    cases hs : c.said body' with
    | error e =>
      rw [hs] at h
      cases h
    | ok x =>
      rw [hs] at h
      cases h
      exact ⟨ht, x, hs⟩

theorem front_of_take {x : Content} (ht : Frame.take c.maxFrame bs = .ok (some (body, rest)))
    (hx : c.said body = .ok x) : c.front bs = .ok (body, rest) := by
  simp only [front, ht, hx, Except.map]

theorem front_of_refused_body (ht : Frame.take c.maxFrame bs = .ok (some (body, rest)))
    (hx : c.said body = .error e) : c.front bs = .error e := by
  simp only [front, ht, hx, Except.map]

theorem front_of_refusal (ht : Frame.take c.maxFrame bs = .error e) : c.front bs = .error e := by
  simp only [front, ht]

theorem front_of_end (ht : Frame.take c.maxFrame bs = .ok none) :
    c.front bs = .error (if bs.isEmpty then .connectionClosed else .unexpectedEndOfStream) := by
  simp only [front, ht]

/-- The frames that are packets, each with its length and whether it is compressed, and why reading
ends behind them. -/
def account (c : Codec) (threshold : Nat → Int32) (k : Nat) (bs : Bytes) :
    List (Nat × Bool) × WireError :=
  match _h : (c.switch (threshold k)).front bs with
  | .error e => ([], e)
  | .ok (body, rest) =>
    let (frames, e) := account c threshold (k + 1) rest
    ((body.length, (c.switch (threshold k)).packs body) :: frames, e)
termination_by bs.length
decreasing_by exact Frame.length_rest_lt (take_of_front _h).1

variable {threshold : Nat → Int32} {k : Nat}

theorem account_of_error (h : (c.switch (threshold k)).front bs = .error e) :
    c.account threshold k bs = ([], e) := by
  rw [account]
  split <;> simp_all

theorem account_of_packet (h : (c.switch (threshold k)).front bs = .ok (body, rest)) :
    c.account threshold k bs =
      ((body.length, (c.switch (threshold k)).packs body) ::
        (c.account threshold (k + 1) rest).1, (c.account threshold (k + 1) rest).2) := by
  rw [account]
  split <;> simp_all

/-! ## What decoding counts -/

theorem front_of_packet {p : Packet} (hr : r.Unlimited) (h : (c.next bs r).result = .ok (some p)) :
    ∃ body, c.front bs = .ok (body, (c.next bs r).left) ∧
      (c.next bs r).reserves.metrics = r.metrics.packetDecoded body.length (c.packs body) := by
  unfold next at h ⊢
  split at h
  · cases h
  · cases h
  · rename_i body rest ht
    have hm := metrics_decodeBody c body hr
    have hs := decodeBody_content c body hr
    split at h <;> rename_i hd <;> cases h
    rw [hd] at hm hs
    exact ⟨body, front_of_take ht hs.symm, hm⟩

theorem front_of_next_refusal (hr : r.Unlimited) (h : (c.next bs r).result = .error e) :
    c.front bs = .error e ∧ (c.next bs r).reserves.metrics = r.metrics.decodeError := by
  unfold next at h ⊢
  split at h
  · rename_i ht
    cases h
    exact ⟨front_of_refusal ht, rfl⟩
  · cases h
  · rename_i body rest ht
    have hm := metrics_decodeBody c body hr
    have hs := decodeBody_content c body hr
    split at h <;> rename_i hd <;> cases h
    rw [hd] at hm hs
    exact ⟨front_of_refused_body ht hs.symm, congrArg Metrics.decodeError hm⟩

/-- A packet at the front stays there when more bytes come. -/
theorem front_append_of_packet (h : c.front bs = .ok (body, rest)) (w : Bytes) :
    c.front (bs ++ w) = .ok (body, rest ++ w) := by
  obtain ⟨ht, x, hx⟩ := take_of_front h
  exact front_of_take (Frame.take_append_of_some ht w) hx

/-- So does a refusal, unlike an end. -/
theorem front_append_of_refusal (h : c.front bs = .error e) (he : e.refuses) (w : Bytes) :
    c.front (bs ++ w) = .error e := by
  cases ht : Frame.take c.maxFrame bs with
  | error x =>
    obtain rfl : x = e := Except.error.inj ((front_of_refusal ht).symm.trans h)
    exact front_of_refusal (Frame.take_append_of_error ht w)
  | ok found =>
    cases found with
    | none =>
      obtain rfl := Except.error.inj ((front_of_end ht).symm.trans h)
      split at he <;> cases he
    | some x =>
      cases hs : c.said x.1 with
      | error y =>
        obtain rfl : y = e := Except.error.inj ((front_of_refused_body ht hs).symm.trans h)
        exact front_of_refused_body (Frame.take_append_of_some ht w) hs
      | ok y => cases (front_of_take ht hs).symm.trans h

end Codec

/-! ## The counters of others -/

variable {σ : Type} [Source σ]

/-- Others leave the counters alone. -/
def Inbox.Surroundings.Quiet (env : Surroundings) : Prop :=
  ∀ j r, (env.others j r).metrics = r.metrics

namespace Inbox

/-- The reserves when the stream has come to its end, if it does in fewer than `n` more polls. -/
def reservesFrom (env : Surroundings) : Nat → Nat → Nat → Answer σ → Option Reserves
  | 0, _, _, _ => none
  | n + 1, k, j, a =>
    match a.next with
    | .ready none => some a.reserves
    | .ready (some _) =>
      reservesFrom env n (k + 1) (j + 1) (pollIn env (k + 1) j a.inbox a.source a.reserves)
    | .pending => reservesFrom env n k (j + 1) (pollIn env k j a.inbox a.source a.reserves)

/-- The reserves behind all items of a stream, if it comes to its end in at most `n` polls. -/
def reservesAfter (env : Surroundings) (n : Nat) (i : Inbox) (s : σ) (r : Reserves) :
    Option Reserves :=
  reservesFrom env n 0 1 (pollIn env 0 0 i s r)

/-- What the stream is to decode of a source that will end is `bs`. -/
structure Faces (i : Inbox) (s : σ) (bs : Bytes) : Prop where
  goesOn : i.phase ≠ .over
  short : i.phase = .gathering → Frame.take i.codec.maxFrame i.buffer = .ok none
  rest : ∃ w, Feeds s w .closed ∧ i.buffer ++ w = bs

/-- How a stream ends, for an error that ends the reading. -/
def closing (e : WireError) : Option (Except WireError Packet) :=
  if e = .connectionClosed then none else some (.error e)

/-- What a poll counts: the packet that it gives or what decoding refuses, of all that there is to
decode. -/
inductive Polled (c : Codec) (bs : Bytes) (m : Metrics) : Answer σ → Prop where
  | pending {i : Inbox} {s : σ} {r : Reserves} : i.codec = c → i.Faces s bs → r.Unlimited →
      r.metrics = m → Polled c bs m ⟨.pending, i, s, r⟩
  | packet {p : Packet} {body rest : Bytes} {i : Inbox} {s : σ} {r : Reserves} :
      c.front bs = .ok (body, rest) → i.codec = c → i.Faces s rest → r.Unlimited →
      r.metrics = m.packetDecoded body.length (c.packs body) →
      Polled c bs m ⟨.ready (some (.ok p)), i, s, r⟩
  | ended {e : WireError} {i : Inbox} {s : σ} {r : Reserves} :
      c.front bs = .error e → i.phase = .over →
      r.metrics = (if e = .connectionClosed ∨ e = .unexpectedEndOfStream then m
        else m.decodeError) →
      Polled c bs m ⟨.ready (closing e), i, s, r⟩

theorem not_end_of_refuses {e : WireError} (he : e.refuses) :
    ¬ (e = .connectionClosed ∨ e = .unexpectedEndOfStream) := by
  rintro (rfl | rfl) <;> cases he

theorem polled_of_end {i i' : Inbox} {s : σ} {r : Reserves} (hi : i'.phase = .over)
    (hshort : Frame.take i.codec.maxFrame i.buffer = .ok none) :
    Polled i.codec i.buffer r.metrics ⟨.ready i.ending, i', s, r⟩ := by
  have hfront := Codec.front_of_end hshort
  have hending : i.ending =
      closing (if i.buffer.isEmpty then .connectionClosed else .unexpectedEndOfStream) := by
    unfold ending closing
    split <;> rfl
  rw [hending]
  refine .ended hfront hi (if_pos ?_).symm
  split
  · exact .inl rfl
  · exact .inr rfl

theorem polled_poll {i : Inbox} {s : σ} {r : Reserves} {bs : Bytes} (h : i.Faces s bs)
    (hr : r.Unlimited) : Polled i.codec bs r.metrics (i.poll false s r) := by
  generalize hc : false = cancelled
  fun_induction poll cancelled i s r with
  | case1 i s r hp => exact absurd hp h.goesOn
  | case2 | case6 => simp_all
  | case3 i s r hp hcan u p hu =>
    obtain ⟨body, hfront, hm⟩ := Codec.front_of_packet hr hu
    obtain ⟨w, hw, rfl⟩ := h.rest
    refine .packet (Codec.front_append_of_packet hfront w) rfl ⟨h.goesOn, fun hg => ?_, w, hw, rfl⟩
      (Codec.next_unlimited _ _ hr) hm
    cases hp.symm.trans hg
  | case4 i s r hp hcan u e hu =>
    obtain ⟨hfront, hm⟩ := Codec.front_of_next_refusal hr hu
    obtain ⟨w, hw, rfl⟩ := h.rest
    have he : e.refuses := Codec.refuses_of_next hu
    have hnot := not_end_of_refuses he
    have hclosing : closing e = some (.error e) := if_neg fun hc => hnot (.inl hc)
    rw [← hclosing]
    exact .ended (Codec.front_append_of_refusal hfront he w) rfl (hm.trans (if_neg hnot).symm)
  | case5 i s r hp hcan u hu ih =>
    have hshort := Codec.next_eq_none_iff.mp hu
    have hu' : u = { result := .ok none, left := i.buffer, reserves := r } := by
      simp only [u, Codec.next, hshort]
    rw [hu'] at ih ⊢
    exact ih ⟨by simp [gather], fun _ => hshort, h.rest⟩ hr
  | case7 i s r hp hcan s' hs =>
    obtain ⟨w, hw, hbs⟩ := h.rest
    cases hs ▸ hw i.room i.room_pos with
    | pending hw' => exact .pending rfl ⟨h.goesOn, h.short, w, hw', hbs⟩ hr rfl
  | case8 i s r hp hcan e s' hs =>
    obtain ⟨w, hw, hbs⟩ := h.rest
    cases hs ▸ hw i.room i.room_pos
  | case9 i s r hp hcan s' hs =>
    obtain ⟨w, hw, rfl⟩ := h.rest
    cases hs ▸ hw i.room i.room_pos with
    | closed =>
      rw [List.append_nil]
      exact polled_of_end rfl (h.short hp)
  | case10 i s r hp hcan b bs s' hs ih =>
    obtain ⟨w, hw, rfl⟩ := h.rest
    cases hs ▸ hw i.room i.room_pos with
    | data hw' =>
      exact ih ⟨by simp, by simp, _, hw', List.append_assoc ..⟩ hr

theorem Faces.switch {i : Inbox} {s : σ} {bs : Bytes} (h : i.Faces s bs) (t : Int32) :
    (i.switch t).Faces s bs := ⟨h.goesOn, h.short, h.rest⟩

variable {env : Surroundings} {c : Codec} {n k j : Nat} {xs : List (Except WireError Packet)}

theorem polled_pollIn {i : Inbox} {s : σ} {r : Reserves} {bs : Bytes} {t : Int32}
    (hquiet : env.Quiet) (hc : i.codec = c.switch t) (h : i.Faces s bs) (hr : r.Unlimited) :
    Polled (c.switch (env.threshold k)) bs r.metrics (pollIn env k j i s r) := by
  have hp := polled_poll (h.switch (env.threshold k)) (env.unlimited j r hr)
  rw [codec_switch hc, hquiet] at hp
  exact hp

theorem reservesFrom_of_polled {bs : Bytes} {m : Metrics} {a : Answer σ} (hquiet : env.Quiet)
    (ha : Polled (c.switch (env.threshold k)) bs m a) (hxs : itemsFrom env n k j a = some xs) :
    let (frames, e) := c.account env.threshold k bs
    ∃ r, reservesFrom env n k j a = some r ∧
      r.metrics = if e = .connectionClosed ∨ e = .unexpectedEndOfStream then m.received frames
        else (m.received frames).decodeError := by
  induction n generalizing k j bs m a xs with
  | zero => cases hxs
  | succ n ih =>
    cases ha with
    | pending hc hface hr hm =>
      subst hm
      exact ih (polled_pollIn hquiet hc hface hr) hxs
    | @packet p body rest i s r hfront hc hface hr hm =>
      simp only [itemsFrom, Option.map_eq_some_iff] at hxs
      obtain ⟨ys, hys, -⟩ := hxs
      have hnext := polled_pollIn hquiet (k := k + 1) (j := j) hc hface hr
      rw [hm] at hnext
      rw [Codec.account_of_packet hfront]
      exact ih hnext hys
    | @ended e i s r hfront hi hm =>
      rw [Codec.account_of_error hfront]
      by_cases he : e = .connectionClosed
      · rw [closing, if_pos he]
        exact ⟨r, rfl, hm⟩
      · rw [closing, if_neg he] at hxs ⊢
        -- The error is not the last answer: the stream is polled once more to see its end.
        have hover : pollIn env (k + 1) j i s r =
            ⟨.ready none, i.switch (env.threshold (k + 1)), s, env.others j r⟩ := poll_of_over hi
        cases n with
        | zero => cases hxs
        | succ n =>
          refine ⟨env.others j r, ?_, (hquiet j r).trans hm⟩
          simp only [reservesFrom, hover]

end Inbox

/-! ## Readers -/

namespace FrameRead

/-- The reserves when a reader has come to its first error, if it does in fewer than `n` more
polls. -/
def reservesFrom (env : Inbox.Surroundings) (c : Codec) : Nat → Nat → Nat →
    Progress FrameRead (Except WireError Packet) × σ × Reserves → Option Reserves
  | 0, _, _, _ => none
  | n + 1, k, j, (.waiting f, s, r) => reservesFrom env c n k (j + 1) (pollIn env c k j f s r)
  | n + 1, k, j, (.done (.ok _), s, r) =>
    reservesFrom env c n (k + 1) (j + 1) (pollIn env c (k + 1) j .start s r)
  | _ + 1, _, _, (.done (.error _), _, r) => some r

/-- The reserves behind the first error of a reader, if that comes in at most `n` polls. -/
def reservesAfter (env : Inbox.Surroundings) (c : Codec) (n : Nat) (s : σ) (r : Reserves) :
    Option Reserves :=
  reservesFrom env c n 0 1 (pollIn env c 0 0 .start s r)

/-- What a read that is polled under threshold `t` counts: its packet, or its error unless that is a
clean end. -/
inductive Polled (c : Codec) (t : Int32) (bs : Bytes) (m : Metrics) :
    Progress FrameRead (Except WireError Packet) × σ × Reserves → Prop where
  | waiting {f : FrameRead} {p w : Bytes} {s : σ} {r : Reserves} : Holds c f p →
      Feeds s w .closed → p ++ w = bs → r.Unlimited → r.metrics = m →
      Polled c t bs m (.waiting f, s, r)
  | packet {p : Packet} {body rest : Bytes} {s : σ} {r : Reserves} :
      (c.switch t).front bs = .ok (body, rest) → Feeds s rest .closed → r.Unlimited →
      r.metrics = m.packetDecoded body.length ((c.switch t).packs body) →
      Polled c t bs m (.done (.ok p), s, r)
  | failed {e : WireError} {s : σ} {r : Reserves} : (c.switch t).front bs = .error e →
      r.metrics = (if e = .connectionClosed then m else m.decodeError) →
      Polled c t bs m (.done (.error e), s, r)

variable {env : Inbox.Surroundings} {c : Codec} {t : Int32} {n k j : Nat} {s : σ} {r : Reserves}

theorem polled_fail {bs : Bytes} {e : WireError} (hfront : (c.switch t).front bs = .error e)
    (s : σ) (r : Reserves) : Polled c t bs r.metrics (fail e s r) :=
  .failed hfront (by split <;> simp_all [Reserves.count])

theorem polled_pollBody {v : Int32} {buffer : Buffer} {head body w : Bytes}
    (hv : Numeral32 head v) (hl : Frame.checkLength c.maxFrame v = .ok buffer.length)
    (hb : body.length = buffer.length) (hs : Feeds s w .closed) (hr : r.Unlimited) :
    Polled c t (head ++ body ++ w) r.metrics (pollBody (c.switch t) buffer body s r) := by
  have hbytes : (buffer.overwrite 0 body).bytes = body :=
    Codec.overwrite_whole (Nat.le_of_eq hb.symm)
  have htake : Frame.take (c.switch t).maxFrame (head ++ body ++ w) = .ok (some (body, w)) :=
    Frame.take_of_frame hv (hb ▸ hl) w
  have hsaid := (c.switch t).decodePooled_content (buffer.overwrite 0 body) hr hr
  have hm := (c.switch t).metrics_decodePooled (buffer.overwrite 0 body) hr
  have hr' := (c.switch t).decodePooled_unlimited (buffer.overwrite 0 body) hr
  rw [Codec.decodeBody_content _ _ hr] at hsaid
  rw [Buffer.length] at hm
  rw [hbytes] at hsaid hm
  simp only [pollBody, readExact_of_enough (Nat.le_of_eq hb.symm)]
  rcases hd : (c.switch t).decodePooled (buffer.overwrite 0 body) r with ⟨e | p, r'⟩ <;>
    rw [hd] at hsaid hm hr'
  · have hm' : r'.metrics = r.metrics := hm
    rw [← hm']
    exact polled_fail (Codec.front_of_refused_body htake hsaid.symm) s r'
  · exact .packet (Codec.front_of_take htake hsaid.symm) hs hr' hm

theorem polled_pollSized {v : Int32} {head w : Bytes} {s : σ} (hv : Numeral32 head v)
    (hnext : ∀ {f : FrameRead} {p : Bytes}, Holds c f p → ∀ {r : Reserves}, r.Unlimited →
      Polled c t (p ++ w) r.metrics (f.poll (c.switch t) s r)) (hr : r.Unlimited) :
    Polled c t (head ++ w) r.metrics (pollSized (c.switch t) v s r) := by
  have hmax : (c.switch t).maxFrame = c.maxFrame := rfl
  unfold pollSized
  rw [hmax]
  cases hl : Frame.checkLength c.maxFrame v with
  | error e =>
    have htake : Frame.take (c.switch t).maxFrame (head ++ w) = .error e := by
      simp only [Frame.take, scan32_of_numeral hv, hmax, hl]
    exact polled_fail (Codec.front_of_refusal htake) s r
  | ok n =>
    obtain ⟨buffer, r', ha⟩ := hr.acquire n
    have hn : buffer.length = n := Reserves.length_of_acquire ha
    have hpos : 1 ≤ n := (Frame.checkLength_eq_ok_iff.mp hl).2.1
    have hholds : Holds c (.body buffer []) (head ++ []) :=
      .body hv (hn ▸ hl) (by rw [List.length_nil]; omega)
    rw [List.append_nil] at hholds
    rw [← Reserves.metrics_of_acquire ha]
    simp only [ha]
    exact hnext hholds ((Reserves.Path.of_acquire ha).unlimited hr)

/-- Whatever pieces the rest arrives in, a poll counts by all the bytes. -/
theorem polled_of_gives {g : Poll (Except IoError Bytes) × σ} {w : Bytes} {fin : Ending}
    (h : Gives g w fin) (hfin : fin = .closed) :
    ∀ {f : FrameRead} {p : Bytes} {s : σ}, Holds c f p → Source.read f.room s = g →
      ∀ {r : Reserves}, r.Unlimited →
        Polled c t (p ++ w) r.metrics (f.poll (c.switch t) s r) := by
  induction h with
  | pending hw ih =>
    intro f p s hf hs r hr
    rw [poll_of_pause _ hf hs]
    subst hfin
    exact .waiting hf hw rfl hr rfl
  | @data s' b bs w fin hw ih =>
    intro f p s hf hs r hr
    subst hfin
    have hmore {f : FrameRead} {p : Bytes} (hf : Holds c f p) {r : Reserves} (hr : r.Unlimited) :
        Polled c t (p ++ w) r.metrics (f.poll (c.switch t) s' r) :=
      ih f.room hf.room_pos rfl hf rfl hr
    cases hf with
    | @length n p hn hp =>
      obtain ⟨rfl, -⟩ := readByte_of_data hs
      have happ : p ++ ([b] ++ w) = p ++ [b] ++ w := (List.append_assoc p [b] w).symm
      rw [happ]
      by_cases hb : b.toNat < 128
      · rw [poll_of_last _ hn hs hb]
        exact polled_pollSized (hp.numeral hn hb) hmore hr
      · have hp' := hp.add hn (Nat.not_lt.mp hb)
        rw [poll_of_more _ hn hs (Nat.not_lt.mp hb)]
        by_cases hfull : (n.add b).groups < maxLength32
        · exact hmore (.length hfull hp') hr
        · simp only [poll, NumberRead.poll_of_full (Nat.not_lt.mp hfull)]
          exact polled_fail (Codec.front_of_refusal (take_of_full hp' (Nat.not_lt.mp hfull) w)) s' r
    | @body v buffer head got hv hl hg =>
      have hlen : bs.length + 1 ≤ buffer.length - got.length := Source.length_le hs
      have happ : head ++ got ++ (b :: bs ++ w) = head ++ (got ++ b :: bs) ++ w := by
        simp only [List.append_assoc]
      rw [happ, poll_of_piece _ hg hs]
      have hsum : (got ++ b :: bs).length = got.length + (bs.length + 1) := by simp
      by_cases hwhole : (got ++ b :: bs).length = buffer.length
      · exact polled_pollBody hv hl hwhole hw hr
      · exact hmore (.body hv hl (by omega)) hr
  | closed =>
    intro f p s hf hs r hr
    have hfront : (c.switch t).front (p ++ []) = _ :=
      Codec.front_of_end (by rw [List.append_nil]; exact hf.take_eq_none)
    cases hf with
    | @length n p hn hp =>
      have hzero : n.groups = 0 ↔ (p ++ []).isEmpty := by
        rw [hp.groups, List.length_eq_zero_iff, List.isEmpty_iff, List.append_nil]
      have hpoll := NumberRead.poll_of_error hn (readByte_of_end hs)
      simp only [NumberRead.failed, IoError.ofKind, if_true, hzero] at hpoll
      by_cases hempty : (p ++ []).isEmpty
      · rw [if_pos hempty] at hpoll hfront
        simp only [poll, hpoll]
        exact polled_fail hfront _ r
      · rw [if_neg hempty] at hpoll hfront
        simp only [poll, hpoll]
        exact polled_fail hfront _ r
    | @body v buffer head got hv hl hg =>
      have hne : (head ++ got ++ []).isEmpty = false := by
        have := hv.length_pos
        cases head with
        | nil => cases this
        | cons b bs => rfl
      rw [hne] at hfront
      simp only [poll, pollBody, readExact_of_end hg hs]
      exact polled_fail hfront _ (r.release buffer)
  | failed => cases hfin

theorem polled_pollIn {f : FrameRead} {p w : Bytes} (hquiet : env.Quiet) (hf : Holds c f p)
    (hs : Feeds s w .closed) (hr : r.Unlimited) :
    Polled c (env.threshold k) (p ++ w) r.metrics (pollIn env c k j f s r) := by
  have hp := polled_of_gives (t := env.threshold k) (hs f.room hf.room_pos) rfl hf rfl
    (env.unlimited j r hr)
  rw [hquiet] at hp
  exact hp

/-- A reader that comes to its first error has counted its packets, and that error unless it is a
clean end. -/
theorem reservesFrom_of_polled {bs : Bytes} {m : Metrics}
    {a : Progress FrameRead (Except WireError Packet) × σ × Reserves}
    {ys : List (Except WireError Packet)} (hquiet : env.Quiet)
    (ha : Polled c (env.threshold k) bs m a) (hys : packetsFrom env c n k j a = some ys) :
    let (frames, e) := c.account env.threshold k bs
    ys.getLast? = some (.error e) ∧ ∃ r, reservesFrom env c n k j a = some r ∧
      r.metrics = if e = .connectionClosed then m.received frames
        else (m.received frames).decodeError := by
  induction n generalizing k j bs m a ys with
  | zero => cases hys
  | succ n ih =>
    cases ha with
    | waiting hf hs hbs hr hm =>
      subst hbs hm
      exact ih (polled_pollIn hquiet hf hs hr) hys
    | @packet p body rest s r hfront hs hr hm =>
      simp only [packetsFrom, Option.map_eq_some_iff] at hys
      obtain ⟨zs, hzs, rfl⟩ := hys
      have hnext := polled_pollIn hquiet (k := k + 1) (j := j) (.start c) hs hr
      rw [List.nil_append, hm] at hnext
      rw [Codec.account_of_packet hfront]
      obtain ⟨hlast, hrest⟩ := ih hnext hzs
      exact ⟨by rw [List.getLast?_cons, hlast, Option.getD_some], hrest⟩
    | @failed e s r hfront hm =>
      cases hys
      rw [Codec.account_of_error hfront]
      exact ⟨rfl, r, rfl, hm⟩

end FrameRead

/-- However the same bytes reach them, both readers count the same packets. One that pulls its
frames counts the error that it comes to unless that is a clean end; a stream only if it is no end
of any kind. -/
theorem readers_count (env env' : Inbox.Surroundings) (ht : env'.threshold = env.threshold)
    (hquiet : env.Quiet) (hquiet' : env'.Quiet) (c : Codec) (chunk : Nat) {σ σ' : Type} [Source σ]
    [Source σ'] {s : σ} {s' : σ'} {w : Bytes} (h : Feeds s w .closed) (h' : Feeds s' w .closed)
    {r r' : Reserves} (hr : r.Unlimited) (hr' : r'.Unlimited) :
    ∃ n, ∀ m, n ≤ m → ∃ xs ys r₁ r₁' e,
      Inbox.items env m { codec := c, chunk } s r = some xs ∧
      Inbox.reservesAfter env m { codec := c, chunk } s r = some r₁ ∧
      FrameRead.packets env' c m s' r' = some ys ∧
      FrameRead.reservesAfter env' c m s' r' = some r₁' ∧
      ys.map (Except.map Packet.content) = FrameRead.told (xs.map (Except.map Packet.content)) ∧
      ys.getLast? = some (.error e) ∧
      (∀ counter ∈ [Metrics.packetsDecoded, Metrics.bytesReceived, Metrics.compressedReceived],
        counter r₁.metrics - counter r.metrics = counter r₁'.metrics - counter r'.metrics) ∧
      r₁'.metrics.decodeErrors =
        r'.metrics.decodeErrors + (if e = .connectionClosed then 0 else 1) ∧
      r₁.metrics.decodeErrors = r.metrics.decodeErrors +
        (if e = .connectionClosed ∨ e = .unexpectedEndOfStream then 0 else 1) := by
  obtain ⟨n, hn⟩ := FrameRead.packets_eq_items env env' ht c chunk h h' hr hr'
  refine ⟨n, fun m hm => ?_⟩
  obtain ⟨xs, ys, hxs, hys, htold⟩ := hn m hm
  have hface : Inbox.Faces { codec := c, chunk } s w :=
    ⟨by simp, fun _ => Frame.take_nil _, w, h, rfl⟩
  have hi := Inbox.polled_pollIn (k := 0) (j := 0) (t := c.threshold) hquiet rfl hface hr
  have hf := FrameRead.polled_pollIn (k := 0) (j := 0) hquiet' (.start c) h' hr'
  obtain ⟨r₁, hr₁, hm₁⟩ := Inbox.reservesFrom_of_polled hquiet hi hxs
  obtain ⟨hlast, r₁', hr₁', hm₁'⟩ := FrameRead.reservesFrom_of_polled hquiet' hf hys
  rw [List.nil_append, ht] at hlast hm₁'
  generalize c.account env.threshold 0 w = reading at hlast hm₁ hm₁'
  obtain ⟨frames, e⟩ := reading
  refine ⟨xs, ys, r₁, r₁', e, hxs, hr₁, hys, hr₁', htold, hlast, fun counter hc => ?_, ?_, ?_⟩
  · obtain ⟨d, hd⟩ := Metrics.received_adds frames counter hc
    have hstays := Metrics.decodeError_stays counter hc
    have hgrown : counter r₁.metrics = counter r.metrics + d := by
      rw [hm₁]
      split <;> simp only [hstays, hd]
    have hgrown' : counter r₁'.metrics = counter r'.metrics + d := by
      rw [hm₁']
      split <;> simp only [hstays, hd]
    rw [hgrown, hgrown', Metrics.add_sub_self, Metrics.add_sub_self]
  · rw [hm₁']
    split <;> simp [Metrics.decodeError]
  · rw [hm₁]
    split <;> simp [Metrics.decodeError]

/-- A packet, and a frame that the source ends in. -/
theorem readers_count_cut :
    let env : Inbox.Surroundings :=
      { threshold := fun _ => -1, others := fun _ r => r, unlimited := fun _ _ h => h }
    let s : Script := { reads := [.data [2, 5], .pending, .data [7, 4, 1]] }
    env.Quiet ∧ Feeds s [2, 5, 7, 4, 1] .closed ∧ Reserves.Unlimited {} ∧
      ∃ n, ∀ m, n ≤ m → ∃ ys r₁ r₁',
        Inbox.reservesAfter env m { codec := {}, chunk := 1 } s {} = some r₁ ∧
        FrameRead.packets env {} m s {} = some ys ∧
        FrameRead.reservesAfter env {} m s {} = some r₁' ∧
        ys.getLast? = some (.error .unexpectedEndOfStream) ∧
        r₁.metrics.packetsDecoded = r₁'.metrics.packetsDecoded ∧
        r₁.metrics.decodeErrors = 0 ∧ r₁'.metrics.decodeErrors = 1 := by
  intro env s
  have hquiet : env.Quiet := fun _ _ => rfl
  have hs : Feeds s [2, 5, 7, 4, 1] .closed := Script.feeds s.reads [] (by decide) rfl s rfl rfl
  have hr : Reserves.Unlimited {} := rfl
  have hd : ({} : Codec).decodeAll env.threshold .closed 0 [2, 5, 7, 4, 1] {} =
      [.ok ⟨5, .shared [5, 7], 0, 1⟩, .error .unexpectedEndOfStream] := by
    rw [Codec.decodeAll_of_packet (p := ⟨5, .shared [5, 7], 0, 1⟩) rfl,
      Codec.decodeAll_of_incomplete rfl]
    rfl
  obtain ⟨n, hn⟩ := readers_count env env rfl hquiet hquiet {} 1 hs hs hr hr
  obtain ⟨n', hn'⟩ := Inbox.yields_of_feeds env {} 1 hs hr hr
  refine ⟨hquiet, hs, hr, max n n', fun m hm => ?_⟩
  obtain ⟨xs, ys, r₁, r₁', e, hxs, hr₁, hys, hr₁', hsaid, hlast, hcount, hreader, hstream⟩ :=
    hn m (by omega)
  obtain ⟨xs', hxs', hsame⟩ := hn' m (by omega)
  obtain rfl : xs' = xs := Option.some.inj (hxs'.symm.trans hxs)
  rw [hsame.content, hd] at hsaid
  have he := congrArg (Option.map (Except.map Packet.content)) hlast
  rw [← List.getLast?_map, hsaid] at he
  obtain rfl : WireError.unexpectedEndOfStream = e := Except.error.inj (Option.some.inj he)
  have hdecoded := hcount Metrics.packetsDecoded (by simp)
  exact ⟨ys, r₁, r₁', hr₁, hys, hr₁', hlast, by simpa using hdecoded, hstream, hreader⟩

/-- A stream that ends inside a frame fails, and counts no failure. -/
theorem cut_uncounted :
    let env : Inbox.Surroundings :=
      { threshold := fun _ => -1, others := fun _ r => r, unlimited := fun _ _ h => h }
    let s : Script := { reads := [.data [4, 1]] }
    Inbox.items env 2 { codec := {}, chunk := 1 } s {} = some [.error .unexpectedEndOfStream] ∧
      (Inbox.reservesAfter env 2 { codec := {}, chunk := 1 } s {}).map (·.metrics) = some {} ∧
      (FrameRead.reservesAfter env {} 3 s {}).map (·.metrics) = some { decodeErrors := 1 } := by
  decide +kernel

end PacketWire
