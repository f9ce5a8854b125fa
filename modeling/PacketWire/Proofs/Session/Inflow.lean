import PacketWire.Proofs.Endpoint.Intake
import PacketWire.Proofs.Readers
import PacketWire.Proofs.Session.Report

/-!
# The way in

What a session has still to receive lies in four places: in the buffer of the stream, in the inbound
pipe, with the pump and in the transport. `Received` is what a poll of the stream makes of the first
two, and `Feeding` says that all four hold together. While the session is not cancelled, a receive
decodes the next frame of the four as if they were one byte string, and the pump only moves bytes
from one of them to the next.
-/

namespace PacketWire

namespace Pipe

variable {most : Nat} {p p' : Pipe}

theorem of_read_pending (h : p.read most = (.pending, p')) : p.held = [] ∧ p.closed = false := by
  unfold read at h
  split at h
  · rename_i hheld
    refine ⟨List.isEmpty_iff.mp hheld, ?_⟩
    cases hclosed : p.closed with
    | false => rfl
    | true => simp [hclosed] at h
  · cases h

theorem limit_read (most : Nat) (p : Pipe) : (p.read most).2.limit = p.limit := by
  unfold read
  split <;> rfl

end Pipe

/-- Whether an error only says that the reserves, which are limited, have no buffer left. -/
def Reserves.Lacks (r : Reserves) (x : WireError) : Prop :=
  (∃ n, x = .poolExhausted n) ∧ ¬ r.Unlimited

namespace Codec

/-- Whether decoding `bs`, the first packet under `cur`, gives `q` and then what decoding `bs'`
gives. -/
def Starts (cur : Codec) (e : Ending) (bs : Bytes) (q : Packet) (bs' : Bytes) : Prop :=
  ∀ (c : Codec) (threshold : Nat → Int32) (k : Nat) (r : Reserves), r.Unlimited →
    cur = c.switch (threshold k) → ∃ q' r', r'.Unlimited ∧ q'.trimmed = q.trimmed ∧
      c.decodeAll threshold e k bs r = .ok q' :: c.decodeAll threshold e (k + 1) bs' r'

/-- Whether decoding `bs`, the first packet under `cur`, gives no packet and tells `x`. -/
def Ends (cur : Codec) (e : Ending) (bs : Bytes) (x : WireError) : Prop :=
  ∀ (c : Codec) (threshold : Nat → Int32) (k : Nat) (r : Reserves), r.Unlimited →
    cur = c.switch (threshold k) →
      FrameRead.told (c.decodeAll threshold e k bs r) = [.error x]

variable {cur : Codec} {e : Ending} {bs bs' : Bytes}

theorem starts_of_next {q : Packet} (h : ∀ r : Reserves, r.Unlimited → ∃ q',
    (cur.next bs r).result = .ok (some q') ∧ q'.trimmed = q.trimmed ∧
      (cur.next bs r).left = bs') : cur.Starts e bs q bs' := by
  intro c threshold k r hr hc
  obtain ⟨q', hq, htrim, hleft⟩ := h r hr
  rw [hc] at hq hleft
  rw [decodeAll_of_packet hq, hleft]
  exact ⟨q', _, next_unlimited _ _ hr, htrim, rfl⟩

theorem ends_of_refusal {x : WireError}
    (h : ∀ r : Reserves, r.Unlimited → (cur.next bs r).result = .error x) : cur.Ends e bs x := by
  intro c threshold k r hr hc
  have hx := h r hr
  rw [hc] at hx
  rw [decodeAll_of_refusal hx]
  rfl

/-- Bytes that end in an incomplete frame, and none at all, are the end of a closed source. -/
theorem ends_of_incomplete (h : Frame.take cur.maxFrame bs = .ok none) :
    cur.Ends .closed bs (if bs.isEmpty then .connectionClosed else .unexpectedEndOfStream) := by
  intro c threshold k r hr hc
  rw [hc] at h
  rw [decodeAll_of_incomplete (next_eq_none_iff.mpr h), Ending.after]
  cases bs <;> rfl

end Codec

namespace Inbox

/-! ## One poll -/

/-- What an answer over a pipe makes of the bytes in the buffer and in the pipe. -/
structure Received (i : Inbox) (p : Pipe) (r : Reserves) (a : Answer Pipe) : Prop where
  closed : a.source.closed = p.closed
  limit : a.source.limit = p.limit
  shorter : a.source.held.length ≤ p.held.length
  next : match a.next with
    | .pending =>
      a.inbox.phase = .gathering ∧ Frame.take i.codec.maxFrame a.inbox.buffer = .ok none ∧
        p.closed = false ∧ a.source.held = [] ∧ a.inbox.buffer = i.buffer ++ p.held
    | .ready none => a.inbox.phase = .over ∧ p.closed = true ∧ i.buffer ++ p.held = []
    | .ready (some (.ok q)) =>
      a.inbox.phase = .draining ∧
        (a.inbox.buffer ++ a.source.held).length < (i.buffer ++ p.held).length ∧
        ∀ r more, r.Unlimited → ∃ q',
          (i.codec.next (i.buffer ++ p.held ++ more) r).result = .ok (some q') ∧
          q'.trimmed = q.trimmed ∧
          (i.codec.next (i.buffer ++ p.held ++ more) r).left =
            a.inbox.buffer ++ a.source.held ++ more
    | .ready (some (.error x)) =>
      a.inbox.phase = .over ∧
        (r.Lacks x ∨
          (∀ r more, r.Unlimited →
            (i.codec.next (i.buffer ++ p.held ++ more) r).result = .error x) ∨
          p.closed = true ∧ x = .unexpectedEndOfStream ∧ i.buffer ++ p.held ≠ [] ∧
            Frame.take i.codec.maxFrame (i.buffer ++ p.held) = .ok none)

variable {i i' : Inbox} {p p' : Pipe} {r r' : Reserves}

theorem Received.congr {a : Answer Pipe} (h : Received i' p' r' a)
    (hunlimited : r.Unlimited → r'.Unlimited) (hcodec : i'.codec = i.codec)
    (hbytes : i'.buffer ++ p'.held = i.buffer ++ p.held) (hclosed : p'.closed = p.closed)
    (hlimit : p'.limit = p.limit) (hshorter : p'.held.length ≤ p.held.length) :
    Received i p r a where
  closed := h.closed.trans hclosed
  limit := h.limit.trans hlimit
  shorter := Nat.le_trans h.shorter hshorter
  next := by
    have hnext := h.next
    rw [hcodec, hbytes, hclosed] at hnext
    split at hnext
    · exact hnext
    · exact hnext
    · exact hnext
    · exact hnext.imp id fun hwhy => hwhy.imp
        (fun hlacks => ⟨hlacks.1, fun hr => hlacks.2 (hunlimited hr)⟩) id

theorem codec_poll {σ : Type} [Source σ] (cancelled : Bool) (i : Inbox) (s : σ) (r : Reserves) :
    (i.poll cancelled s r).inbox.codec = i.codec := by
  fun_induction poll cancelled i s r with
  | case5 i s r hp hcan t ht ih => exact ih
  | case10 i s r hp hcan b bs s' hr ih => exact ih
  | _ => rfl

/-- A stream that is not over either needs more bytes for its first frame, or has not looked. -/
structure Open (i : Inbox) : Prop where
  live : i.phase ≠ .over
  incomplete : i.phase = .gathering → Frame.take i.codec.maxFrame i.buffer = .ok none

theorem received_poll (h : i.Open) : Received i p r (i.poll false p r) := by
  generalize hlive : false = cancelled
  fun_induction poll cancelled i p r with
  | case1 i p r hp => exact absurd hp h.live
  | case2 i p r hp hcan => exact absurd (hlive.trans hcan) (by simp)
  | case3 i p r hp hcan t q ht =>
    have ht : (i.codec.next i.buffer r).result = .ok (some q) := ht
    refine ⟨rfl, rfl, Nat.le_refl _, hp, ?_, fun r' more hr' => ?_⟩
    · show (t.left ++ p.held).length < _
      rw [List.length_append, List.length_append]
      exact Nat.add_lt_add_right (Codec.length_left_lt ht) _
    · obtain ⟨q', hq, htrim, hleft⟩ := Codec.next_append_of_packet hr' ht (p.held ++ more)
      rw [← List.append_assoc] at hq hleft
      exact ⟨q', hq, htrim, hleft.trans (List.append_assoc ..).symm⟩
  | case4 i p r hp hcan t x ht =>
    have ht : (i.codec.next i.buffer r).result = .error x := ht
    refine ⟨rfl, rfl, Nat.le_refl _, rfl, ?_⟩
    by_cases hlacks : r.Lacks x
    · exact .inl hlacks
    · refine .inr (.inl fun r' more hr' => ?_)
      rw [List.append_assoc]
      by_cases hr : r.Unlimited
      · exact Codec.next_append_of_refusal hr hr' ht _
      · exact Codec.next_append_of_limited_refusal hr' ht (fun n hn => hlacks ⟨⟨n, hn⟩, hr⟩) _
  | case5 i p r hp hcan t ht ih =>
    have hnone : Frame.take i.codec.maxFrame i.buffer = .ok none := Codec.next_eq_none_iff.mp ht
    have hleft : t.left = i.buffer := (Codec.next_of_no_take r hnone).2
    have hbuffer : (i.keep t.left).gather.buffer = i.buffer := hleft
    have hopen : (i.keep t.left).gather.Open :=
      ⟨by simp [gather], fun _ => by rw [hbuffer]; exact hnone⟩
    exact (ih hopen).congr (Codec.next_unlimited _ _) rfl (by rw [hbuffer]) rfl rfl (Nat.le_refl _)
  | case6 i p r hp hcan => exact absurd (hlive.trans hcan) (by simp)
  | case7 i p r hp hcan p' hr =>
    obtain rfl := Pipe.read_eq_pending hr
    obtain ⟨hheld, hclosed⟩ := Pipe.of_read_pending hr
    refine ⟨rfl, rfl, Nat.le_refl _, hp, h.incomplete hp, hclosed, hheld, ?_⟩
    show i.buffer = _
    rw [hheld, List.append_nil]
  | case8 i p r hp hcan x p' hr => exact absurd hr Pipe.read_ne_error
  | case9 i p r hp hcan p' hr =>
    obtain ⟨rfl, hheld, hclosed⟩ := Pipe.read_eq_end i.room_pos hr
    have hbytes : i.buffer ++ p'.held = i.buffer := by rw [hheld, List.append_nil]
    refine ⟨rfl, rfl, Nat.le_refl _, ?_⟩
    rw [hbytes]
    unfold ending
    split <;> rename_i hending
    · cases hending
    · simp at hending
      exact ⟨rfl, hclosed, hending⟩
    · split at hending <;> cases hending
    · split at hending
      · cases hending
      · rename_i hne
        cases hending
        exact ⟨rfl, .inr (.inr ⟨hclosed, rfl, by simpa using hne, h.incomplete hp⟩)⟩
  | case10 i p r hp hcan b bs p' hr ih =>
    obtain ⟨hbytes, hclosed⟩ := Pipe.read_eq_bytes hr
    have hlimit := Pipe.limit_read i.room p
    rw [show p.read i.room = _ from hr] at hlimit
    have hopen : Open { i.prepare with buffer := i.buffer ++ b :: bs, phase := .draining } :=
      ⟨by simp, fun hphase => by cases hphase⟩
    refine (ih hopen).congr id rfl ?_ hclosed hlimit ?_
    · rw [List.append_assoc, hbytes]
    · rw [← hbytes, List.length_append]
      exact Nat.le_add_left ..

end Inbox

namespace Session

/-! ## What is still to be received -/

/-- The bytes that a copy task has read and not yet written. -/
def CopyTask.rest (t : CopyTask) : Bytes :=
  match t.copy with
  | some c => c.rest
  | none => []

/-- What is still to be received, if the transport has still to deliver `w`. -/
def incoming {τ : Type} (s : Session τ) (w : Bytes) : Bytes :=
  s.inbox.buffer ++ s.inbound.held ++ (s.pump.rest ++ w)

/-- The way in holds together: the transport has still to deliver `w` and then `e`. -/
structure Feeding {τ : Type} (holds : τ → Bytes → Prop) (e : Ending) (s : Session (Recorded τ))
    (w : Bytes) : Prop where
  inbox : s.inbox.Open
  limit : s.inbound.limit ≠ some 0
  running : ∀ c, s.pump.copy = some c →
    c.phase ≠ .closing ∧ s.inbound.closed = false ∧ holds s.transport.inner w
  finished : s.pump.copy = none → s.inbound.closed = true ∧ w = [] ∧ e = .closed

/-- How far a session is from having received everything. -/
def gauge {τ : Type} (pauses : τ → Nat) (s : Session (Recorded τ)) (w : Bytes) : Nat :=
  (match s.pump.copy with
    | some c => pauses s.transport.inner + 3 * c.rest.length + 1
    | none => 0) +
  4 * w.length + 2 * s.inbound.held.length + s.inbox.buffer.length

/-- Whether a receive gets ahead. -/
def Ready {τ : Type} (s : Session τ) : Prop := s.inbound.held ≠ [] ∨ s.inbound.closed = true

variable {τ : Type} {holds : τ → Bytes → Prop} {e : Ending} {s s' : Session (Recorded τ)}
  {w : Bytes}

/-! ## Receiving -/

/-- While the session is not cancelled, a receive gives the next packet of the reference, or the
error that ends it. -/
inductive Receives (holds : τ → Bytes → Prop) (e : Ending) (s : Session (Recorded τ)) (w : Bytes)
    (r : Reserves) : Poll (Except WireError Packet) × Session (Recorded τ) → Prop where
  | pending (s' : Session (Recorded τ)) (feeding : s'.Feeding holds e w)
      (live : s'.cancelled = false) (incoming : s'.incoming w = s.incoming w)
      (gauge : ∀ pauses, s'.gauge pauses w ≤ s.gauge pauses w ∧
        (s.Ready → s'.gauge pauses w < s.gauge pauses w)) :
      Receives holds e s w r (.pending, s')
  | packet (q : Packet) (s' : Session (Recorded τ)) (feeding : s'.Feeding holds e w)
      (live : s'.cancelled = false)
      (starts : s.inbox.codec.Starts e (s.incoming w) q (s'.incoming w))
      (gauge : ∀ pauses, s'.gauge pauses w < s.gauge pauses w) :
      Receives holds e s w r (.ready (.ok q), s')
  | error (x : WireError) (s' : Session (Recorded τ))
      (ended : s'.cancelled = true ∨ s'.inbox.phase = .over)
      (ends : r.Lacks x ∨ s.inbox.codec.Ends e (s.incoming w) x) :
      Receives holds e s w r (.ready (.error x), s')

theorem Feeding.of_closed (h : s.Feeding holds e w) (hclosed : s.inbound.closed = true) :
    e = .closed ∧ s.incoming w = s.inbox.buffer ++ s.inbound.held := by
  cases hpump : s.pump.copy with
  | some c => exact absurd (hclosed.symm.trans (h.running c hpump).2.1) (by simp)
  | none =>
    obtain ⟨-, rfl, hend⟩ := h.finished hpump
    refine ⟨hend, ?_⟩
    simp only [incoming, CopyTask.rest, hpump, List.append_nil]

theorem Feeding.receives (h : s.Feeding holds e w) (hlive : s.cancelled = false)
    (hnone : s.firstError = none) (r : Reserves) :
    Receives holds e s w r ((s.receive r).1, (s.receive r).2.1) := by
  have hreceived : s.inbox.Received s.inbound r (s.inbox.poll s.cancelled s.inbound r) := by
    rw [hlive]
    exact Inbox.received_poll h.inbox
  have hfeeding {i : Inbox} {p : Pipe} (hopen : i.Open) (hclosed : p.closed = s.inbound.closed)
      (hlimit : p.limit = s.inbound.limit) :
      Feeding holds e { s with inbox := i, inbound := p } w :=
    ⟨hopen, hlimit ▸ h.limit, fun c hc => hclosed ▸ h.running c hc, fun hc =>
      hclosed ▸ h.finished hc⟩
  have hincoming {bs : Bytes} (hbs : bs = s.inbox.buffer ++ s.inbound.held) (w : Bytes) :
      s.incoming w = bs ++ (s.pump.rest ++ w) := by rw [hbs]; rfl
  have hcodec := s.inbox.codec_poll s.cancelled s.inbound r
  unfold receive
  generalize s.inbox.poll s.cancelled s.inbound r = a at hreceived hcodec
  obtain ⟨next, inbox, inbound, reserves⟩ := a
  obtain ⟨hclosed, hlimit, hshorter, hnext⟩ := hreceived
  simp only at hcodec hclosed hlimit hshorter hnext ⊢
  split
  · obtain ⟨hphase, htake, hopen, hheld, hbuffer⟩ := hnext
    refine .pending _ (hfeeding ⟨by simp [hphase], fun _ => hcodec ▸ htake⟩ hclosed hlimit) hlive
      ?_ fun pauses => ?_
    · show inbox.buffer ++ inbound.held ++ (s.pump.rest ++ w) = _
      rw [hheld, List.append_nil, ← hincoming hbuffer]
    · have hbytes := congrArg List.length hbuffer
      rw [List.length_append] at hbytes
      simp only [gauge, hheld, hbytes, List.length_nil]
      refine ⟨by omega, fun hready => ?_⟩
      have hpos := List.length_pos_iff.mpr (hready.resolve_right (by simp [hopen]))
      omega
  · rename_i q
    obtain ⟨hphase, hless, hdecodes⟩ := hnext
    refine .packet q _ (hfeeding ⟨by simp [hphase], fun hg => ?_⟩ hclosed hlimit) hlive ?_
      fun pauses => ?_
    · rw [hphase] at hg
      cases hg
    · refine Codec.starts_of_next fun r' hr' => ?_
      rw [hincoming rfl]
      exact hdecodes r' (s.pump.rest ++ w) hr'
    · rw [List.length_append, List.length_append] at hless
      simp only [gauge]
      omega
  · rename_i x
    obtain ⟨hphase, hverdict⟩ := hnext
    refine .error x _ (.inl (by rw [fail_eq])) ?_
    rcases hverdict with hlacks | hrefused | ⟨hend, rfl, hne, htake⟩
    · exact .inl hlacks
    · refine .inr (Codec.ends_of_refusal fun r' hr' => ?_)
      rw [hincoming rfl]
      exact hrefused r' (s.pump.rest ++ w) hr'
    · obtain ⟨rfl, hall⟩ := h.of_closed hend
      have hends := Codec.ends_of_incomplete htake
      rw [if_neg (by simpa using hne)] at hends
      exact .inr (hall ▸ hends)
  · obtain ⟨hphase, hend, hempty⟩ := hnext
    have hterminal : s.terminalError = .connectionClosed := by
      rw [terminalError, hnone, Option.getD_none]
    obtain ⟨rfl, hall⟩ := h.of_closed hend
    show Receives holds .closed s w r (.ready (.error s.terminalError), _)
    rw [hterminal]
    refine .error _ _ (.inr hphase) (.inr ?_)
    rw [hall, hempty]
    exact Codec.ends_of_incomplete (Frame.take_nil _)

theorem codec_receive (s : Session τ) (r : Reserves) :
    (s.receive r).2.1.inbox.codec = s.inbox.codec := by
  have hpoll := s.inbox.codec_poll s.cancelled s.inbound r
  unfold receive
  simp only
  split
  · exact hpoll
  · exact hpoll
  · rw [fail_eq]
    exact hpoll
  · exact hpoll

theorem receive_of_over (hlive : s.cancelled = false) (hphase : s.inbox.phase = .over)
    (r : Reserves) : s.receive r = (.ready (.error s.terminalError), s, r) := by
  have hpoll : s.inbox.poll s.cancelled s.inbound r =
      { next := .ready none, inbox := s.inbox, source := s.inbound, reserves := r } := by
    rw [hlive]
    exact Inbox.poll_of_over hphase
  unfold receive
  rw [hpoll]

variable {s'' : Session (Recorded τ)} {w' : Bytes}

/-- The same bytes are still to be received, and no more is to be done for it. -/
structure Onward [Transport τ] (acts : (τ → τ) → Prop) (holds : τ → Bytes → Prop) (e : Ending)
    (s : Session (Recorded τ)) (w : Bytes) (s' : Session (Recorded τ)) (w' : Bytes) : Prop where
  feeding : s'.Feeding holds e w'
  incoming : s'.incoming w' = s.incoming w
  gauge : ∀ pauses, Prompt acts holds pauses → s'.gauge pauses w' ≤ s.gauge pauses w

/-- `s'` differs from `s` in nothing that is on the way in, except by what was written to the
transport. -/
structure Beside [Transport τ] (s s' : Session (Recorded τ)) : Prop where
  inbox : s'.inbox = s.inbox
  inbound : s'.inbound = s.inbound
  pump : s'.pump.copy = s.pump.copy
  transport : ∀ {Q : τ → Prop}, Survives Q → s.pump.copy ≠ none → Q s.transport.inner →
    Q s'.transport.inner

section

variable [Transport τ] {acts : (τ → τ) → Prop}

namespace Beside

theorem of_eq (hinbox : s'.inbox = s.inbox) (hinbound : s'.inbound = s.inbound)
    (hpump : s'.pump.copy = s.pump.copy) (htransport : s'.transport = s.transport) : Beside s s' :=
  ⟨hinbox, hinbound, hpump, fun _ _ hq => htransport ▸ hq⟩

theorem refl (s : Session (Recorded τ)) : Beside s s := .of_eq rfl rfl rfl rfl

theorem trans (h : Beside s s') (h' : Beside s' s'') : Beside s s'' where
  inbox := h'.inbox.trans h.inbox
  inbound := h'.inbound.trans h.inbound
  pump := h'.pump.trans h.pump
  transport hQ hrunning hq :=
    h'.transport hQ (h.pump ▸ hrunning) (h.transport hQ hrunning hq)

end Beside

theorem beside_ended {α : Type} (result : Except WireError α) (s : Session (Recorded τ)) :
    Beside s (s.ended result) := by
  cases result with
  | ok _ => exact .refl s
  | error e =>
    show Beside s (s.fail e)
    rw [fail_eq]
    exact .of_eq rfl rfl (CopyTask.copy_wake _) rfl

theorem beside_endWriter {α : Type} (result : Except WireError α) (s : Session (Recorded τ)) :
    Beside s (s.endWriter result) :=
  (beside_ended result s).trans (.of_eq rfl rfl rfl rfl)

theorem beside_pollClosing (c : Outbox.Close) (s : Session (Recorded τ)) :
    Beside s (s.pollClosing c) := by
  have hhand (outbox : Outbox) (outbound : Pipe) : Beside s { s with outbox, outbound } :=
    .of_eq rfl rfl rfl rfl
  unfold pollClosing
  split
  · exact .of_eq rfl rfl rfl rfl
  · exact (hhand ..).trans (beside_endWriter _ _)

theorem beside_pollWriter (s : Session (Recorded τ)) (r : Reserves) :
    Beside s (s.pollWriter r).1 := by
  have hhand (s : Session (Recorded τ)) (outbox : Outbox) (outbound : Pipe) :
      Beside s { s with outbox, outbound } := .of_eq rfl rfl rfl rfl
  fun_induction pollWriter s r with
  | case1 => exact .refl _
  | case2 s r c => exact beside_pollClosing c s
  | case3 => exact beside_endWriter _ _
  | case4 s r => exact beside_pollClosing _ s
  | case5 => exact .refl _
  | case6 => exact (hhand ..).trans (beside_endWriter _ _)
  | case7 s r hw hcan p ps hq outbox r' hst ih =>
    refine Beside.trans ?_ ih
    exact .of_eq rfl rfl rfl rfl
  | case8 => exact beside_endWriter _ _
  | case9 => exact .of_eq rfl rfl rfl rfl
  | case10 => exact (hhand ..).trans (beside_endWriter _ _)
  | case11 s r f hw hcan n outbox outbound hp ih =>
    refine Beside.trans ?_ ih
    exact .of_eq rfl rfl rfl rfl

theorem beside_releaseTransport (s : Session (Recorded τ)) : Beside s s.releaseTransport := by
  unfold releaseTransport
  split
  · rename_i hboth
    have hpump : s.pump.copy = none :=
      CopyTask.isFinished_iff.mp (Bool.and_eq_true .. ▸ hboth).1
    exact ⟨rfl, rfl, rfl, fun _ hrunning => absurd hpump hrunning⟩
  · exact .refl s

theorem beside_pollDrain (s : Session (Recorded τ)) : Beside s s.pollDrain := by
  have hcopied (transport : Recorded τ) (outbound : Pipe) (drain : CopyTask)
      (h : ∀ {Q : τ → Prop}, Survives Q → Q s.transport.inner → Q transport.inner) :
      Beside s { s with transport, outbound, drain } :=
    ⟨rfl, rfl, rfl, fun hQ _ => h hQ⟩
  unfold pollDrain
  split
  · exact .refl s
  · rename_i c due hrunning
    have hkeeps {Q : τ → Prop} (hQ : Survives Q) (hq : Q s.transport.inner) :
        Q (c.poll s.cancelled s.outbound s.transport).2.2.inner :=
      Copy.poll_preserves hQ.recorded s.cancelled c s.outbound s.transport hq
    split <;> rename_i hp <;> rw [hp] at hkeeps
    · exact hcopied _ _ _ hkeeps
    · exact ((hcopied _ _ _ hkeeps).trans (beside_ended _ _)).trans (beside_releaseTransport _)

theorem beside_dropOutbound (s : Session (Recorded τ)) : Beside s s.dropOutbound := by
  unfold dropOutbound
  split <;> exact .of_eq rfl rfl rfl rfl

theorem Onward.trans {w'' : Bytes} (h : Onward acts holds e s w s' w')
    (h' : Onward acts holds e s' w' s'' w'') : Onward acts holds e s w s'' w'' where
  feeding := h'.feeding
  incoming := h'.incoming.trans h.incoming
  gauge pauses hp := Nat.le_trans (h'.gauge pauses hp) (h.gauge pauses hp)

theorem Feeding.beside (h : s.Feeding holds e w) (hd : Delivers acts holds e) (hb : Beside s s') :
    Onward acts holds e s w s' w where
  feeding := by
    refine ⟨hb.inbox ▸ h.inbox, hb.inbound ▸ h.limit, fun c hc => ?_, fun hc => ?_⟩
    · rw [hb.pump] at hc
      obtain ⟨hphase, hopen, hholds⟩ := h.running c hc
      exact ⟨hphase, hb.inbound ▸ hopen,
        hb.transport (hd.survives w) (by rw [hc]; simp) hholds⟩
    · rw [hb.pump] at hc
      exact hb.inbound ▸ h.finished hc
  incoming := by simp only [Session.incoming, hb.inbox, hb.inbound, CopyTask.rest, hb.pump]
  gauge pauses hp := by
    simp only [Session.gauge, hb.inbox, hb.inbound, hb.pump]
    split
    · rename_i c hc
      have hholds := (h.running c hc).2.2
      have hle := (hb.transport (hp.survives w (pauses s.transport.inner)) (by rw [hc]; simp)
        ⟨hholds, Nat.le_refl _⟩).2
      omega
    · exact Nat.le_refl _

theorem Feeding.switched (h : s.Feeding holds e w) (t : Int32) :
    Onward acts holds e s w { s with inbox := s.inbox.switch t } w :=
  ⟨⟨⟨h.inbox.live, h.inbox.incomplete⟩, h.limit, h.running, h.finished⟩, rfl,
    fun _ _ => Nat.le_refl _⟩

omit [Transport τ] in
/-- While the pump runs, a poll of it moves only what is to be fetched. -/
theorem gauge_running {c : Copy} (hc : s.pump.copy = some c) (pauses : τ → Nat) (w : Bytes) :
    s.gauge pauses w = c.toFetch (fun k => pauses k.inner) s.transport w +
      2 * (s.inbound.held ++ (c.rest ++ w)).length + s.inbox.buffer.length + 1 := by
  simp only [gauge, hc, Copy.toFetch, List.length_append]
  omega

theorem Feeding.pumped (h : s.Feeding holds e w) {c c' : Copy} {transport : Recorded τ}
    {inbound : Pipe} {pump : CopyTask} (hcopy : s.pump.copy = some c)
    (hpump : pump.copy = some c') (hphase : c'.phase ≠ .closing)
    (hfetched : c.Fetched (fun k w => holds k.inner w) e s.transport s.inbound w
      (.waiting c', transport, inbound)) :
    ∃ w', Onward acts holds e s w { s with transport, inbound, pump } w' ∧
      ∀ pauses, Prompt acts holds pauses →
        gauge pauses { s with transport, inbound, pump } w' < s.gauge pauses w ∨
          Ready { s with transport, inbound, pump } := by
  obtain ⟨hopen, hlimit, w', hholds, hbytes, hfetch⟩ := hfetched
  have hgauge (pauses : τ → Nat) : gauge pauses { s with transport, inbound, pump } w' +
      c.toFetch (fun k => pauses k.inner) s.transport w =
      s.gauge pauses w + c'.toFetch (fun k => pauses k.inner) transport w' := by
    rw [gauge_running hcopy, gauge_running (c := c') hpump]
    show c'.toFetch _ transport w' + 2 * (inbound.held ++ (c'.rest ++ w')).length +
      s.inbox.buffer.length + 1 + _ = _
    rw [hbytes]
    omega
  refine ⟨w', ⟨⟨h.inbox, hlimit ▸ h.limit, fun d hd => ?_, fun hnone => ?_⟩, ?_,
    fun pauses hp => ?_⟩, fun pauses hp => ?_⟩
  · obtain rfl : c' = d := Option.some.inj (hpump.symm.trans hd)
    exact ⟨hphase, hopen, hholds⟩
  · exact absurd (hpump.symm.trans hnone) (by simp)
  · show s.inbox.buffer ++ inbound.held ++ (pump.rest ++ w') = _
    rw [CopyTask.rest, hpump, List.append_assoc]
    simp only [hbytes, incoming, CopyTask.rest, hcopy, List.append_assoc]
  · have hle := (hfetch _ hp.read.recorded).1
    have heq := hgauge pauses
    omega
  · rcases (hfetch _ hp.read.recorded).2 with hlt | hheld
    · have heq := hgauge pauses
      exact .inl (by omega)
    · exact .inr (.inl hheld)

theorem Feeding.finishes (h : s.Feeding holds .closed w) {c : Copy} {transport : Recorded τ}
    {inbound : Pipe} (hcopy : s.pump.copy = some c) (hlimit : inbound.limit = s.inbound.limit)
    (hheld : inbound.held = s.inbound.held ++ (c.rest ++ w)) :
    Onward acts holds .closed s w
      { s with transport, inbound := inbound.close, pump := .finished } [] where
  feeding := ⟨h.inbox, hlimit ▸ h.limit, fun d hd => (by cases hd), fun _ => ⟨rfl, rfl, rfl⟩⟩
  incoming := by
    show s.inbox.buffer ++ inbound.held ++ [] = _
    simp only [hheld, Session.incoming, CopyTask.rest, hcopy, List.append_nil, List.append_assoc]
  gauge pauses _ := by
    rw [gauge_running hcopy, ← hheld]
    show 0 + 0 + 2 * inbound.held.length + s.inbox.buffer.length ≤ _
    omega

/-- A pump that is not cancelled gets ahead, or leaves something for the reader. -/
theorem Feeding.pollPump (h : s.Feeding holds e w) (hd : Delivers acts holds e)
    (hlive : s.cancelled = false) :
    s.pollPump.cancelled = true ∨ ∃ w', Onward acts holds e s w s.pollPump w' ∧
      ∀ pauses, Prompt acts holds pauses →
        s.pollPump.gauge pauses w' < s.gauge pauses w ∨ s.pollPump.Ready := by
  unfold Session.pollPump
  split
  · rename_i hpump
    have hfinished := h.finished (by rw [hpump]; rfl)
    exact .inr ⟨w, h.beside hd (.refl s), fun _ _ => .inr (.inr hfinished.1)⟩
  · rename_i c due hpump
    have hcopy : s.pump.copy = some c := by rw [hpump]; rfl
    obtain ⟨hphase, hopen, hholds⟩ := h.running c hcopy
    have hfetched := Copy.fetched_poll (hd.read.recorded) hphase hopen h.limit hholds
    rw [← hlive] at hfetched
    split <;> rename_i hp <;> rw [hp] at hfetched
    · exact .inr (h.pumped hcopy rfl (Copy.phase_ne_closing hp) hfetched)
    · rename_i result transport inbound
      cases result with
      | error x =>
        left
        rw [(releaseTransport_cancelled _).1]
        simp only [ended, fail_eq]
      | ok total =>
        obtain ⟨rfl, hclosed, hlimit, hheld⟩ := hfetched
        have hfinished : Onward acts holds .closed s w
            { s with transport, inbound := inbound.close, pump := .finished } [] :=
          h.finishes hcopy hlimit hheld
        have hrelease := beside_releaseTransport
          { s with transport, inbound := inbound.close, pump := .finished }
        have honward := hfinished.trans (hfinished.feeding.beside hd hrelease)
        refine .inr ⟨[], honward, fun _ _ => .inr (.inr ?_)⟩
        exact (honward.feeding.finished hrelease.pump).1

theorem Feeding.elsewhere (h : s.Feeding holds e w) (hd : Delivers acts holds e) {act : τ → τ}
    (hact : acts act) :
    Onward acts holds e s w
      { s with transport := { s.transport with inner := act s.transport.inner } } w where
  feeding := ⟨h.inbox, h.limit, fun c hc =>
    have ⟨hphase, hopen, hholds⟩ := h.running c hc
    ⟨hphase, hopen, hd.elsewhere hact hholds⟩, h.finished⟩
  incoming := rfl
  gauge pauses hp := by
    simp only [Session.gauge]
    split
    · rename_i c hc
      have hle := hp.elsewhere hact (h.running c hc).2.2
      omega
    · exact Nat.le_refl _

theorem inbox_pollPump (s : Session (Recorded τ)) : s.pollPump.inbox = s.inbox := by
  unfold Session.pollPump
  split
  · rfl
  · split
    · rfl
    · exact ((beside_ended _ _).trans (beside_releaseTransport _)).inbox

end

theorem inbox_close (s : Session τ) (r : Reserves) : (s.close r).1.inbox = s.inbox := by
  unfold close
  split <;> rfl

theorem inbox_drop (s : Session τ) (r : Reserves) : (s.drop r).1.inbox = s.inbox := by
  show (s.close r).1.dropOutbound.inbox = s.inbox
  unfold dropOutbound
  split <;> exact inbox_close s r

theorem inbox_shutDown (s : Session τ) (r : Reserves) : (s.shutDown r).2.1.inbox = s.inbox := by
  unfold shutDown
  split
  · simp only
    split
    · exact (inbox_drop ..).trans (inbox_close ..)
    · exact inbox_close ..
  · rfl

theorem Reported.cancelled_close {s : Session τ} (h : s.Reported) (hlive : s.cancelled = false)
    (r : Reserves) : (s.close r).1.cancelled = true := by
  unfold close
  split
  · rename_i hclosed
    exact absurd (hlive.symm.trans (h.closed hclosed)) (by simp)
  · rfl

theorem Reported.cancelled_drop {s : Session τ} (h : s.Reported) (hlive : s.cancelled = false)
    (r : Reserves) : (s.drop r).1.cancelled = true :=
  (notes_dropOutbound _).cancelled (h.cancelled_close hlive r)

theorem Reported.shutDown_eq {s : Session τ} (h : s.Reported) (hlive : s.cancelled = false)
    (r : Reserves) : (s.shutDown r).2.1 = s ∨ (s.shutDown r).2.1.cancelled = true := by
  have hcan := h.cancelled_close hlive r
  unfold shutDown
  split
  · simp only
    split
    · exact .inr ((notes_drop _ _).cancelled hcan)
    · exact .inr hcan
  · exact .inl rfl

end Session

/-! ## Moves -/

def Move.readsUnder {τ : Type} (threshold : Int32) : Move τ → Int32
  | .switchReader t | .switch t => t
  | _ => threshold

namespace Watched

variable {τ : Type} [Transport τ] {w : Watched τ}

theorem inbox_step {m : Move τ} (hm : m ≠ .receive) : (w.step m).session.inbox =
    w.session.inbox.switch (m.readsUnder w.session.inbox.codec.threshold) := by
  cases m with
  | send who waited p =>
    rw [step]
    split
    · rcases w.send_cases who waited p with heq | ⟨-, heq⟩ <;> rw [heq] <;> rfl
    · rfl
  | clone who =>
    rw [step, clone_eq]
    split <;> rfl
  | leave =>
    rw [step]
    split <;> rfl
  | stopSending => exact (Session.beside_dropOutbound _).inbox
  | switchReader t => rfl
  | switchWriter t => rfl
  | switch t => rfl
  | receive => exact absurd rfl hm
  | pump => exact Session.inbox_pollPump _
  | writer => exact (Session.beside_pollWriter _ _).inbox
  | drain => exact (Session.beside_pollDrain _).inbox
  | shutDown => exact Session.inbox_shutDown _ _
  | close => exact Session.inbox_close _ _
  | drop => exact Session.inbox_drop _ _
  | elsewhere act use => rfl

theorem inbox_codec_step (m : Move τ) : (w.step m).session.inbox.codec =
    w.session.inbox.codec.switch (m.readsUnder w.session.inbox.codec.threshold) := by
  by_cases hm : m = .receive
  · subst hm
    exact Session.codec_receive w.session w.reserves
  · exact congrArg Inbox.codec (inbox_step hm)

variable {acts : (τ → τ) → Prop} {holds : τ → Bytes → Prop} {e : Ending} {rest : Bytes}

/-- While the session is not cancelled, a move other than a receive loses nothing on the way in, and
a pump makes it ready for a receive, or gets ahead. -/
theorem onward_step (h : w.session.Feeding holds e rest) (hd : Delivers acts holds e)
    (hlive : w.session.cancelled = false) (hreported : w.session.Reported) {m : Move τ}
    (hm : m ≠ .receive) (hacts : ∀ act use, m = .elsewhere act use → acts act) :
    (w.step m).session.cancelled = true ∨ ∃ rest',
      Session.Onward acts holds e w.session rest (w.step m).session rest' ∧
        ∀ pauses, Prompt acts holds pauses →
          (w.step m).session.gauge pauses rest' < w.session.gauge pauses rest ∨
            (w.session.Ready ∨ m = .pump → (w.step m).session.Ready) := by
  have hbeside {s : Session (Recorded τ)} (hb : Session.Beside w.session s) (hm : m ≠ .pump) :
      s.cancelled = true ∨ ∃ rest', Session.Onward acts holds e w.session rest s rest' ∧
        ∀ pauses, Prompt acts holds pauses →
          s.gauge pauses rest' < w.session.gauge pauses rest ∨
            (w.session.Ready ∨ m = .pump → s.Ready) :=
    .inr ⟨rest, h.beside hd hb, fun _ _ => .inr fun hready => by
      rw [Session.Ready, hb.inbound]
      exact hready.resolve_right hm⟩
  cases m with
  | send who waited p =>
    rw [step]
    split
    · rcases w.send_cases who waited p with heq | ⟨-, heq⟩ <;> rw [heq]
      · exact hbeside (.refl _) (by simp)
      · exact hbeside (.of_eq rfl rfl rfl rfl) (by simp)
    · exact hbeside (.refl _) (by simp)
  | clone who =>
    rw [step, clone_eq]
    split <;> exact hbeside (.of_eq rfl rfl rfl rfl) (by simp)
  | leave =>
    rw [step]
    split <;> exact hbeside (.of_eq rfl rfl rfl rfl) (by simp)
  | stopSending => exact hbeside (Session.beside_dropOutbound _) (by simp)
  | switchReader t =>
    exact .inr ⟨rest, h.switched t, fun _ _ => .inr fun hready => hready.resolve_right (by simp)⟩
  | switchWriter t => exact hbeside (.of_eq rfl rfl rfl rfl) (by simp)
  | switch t =>
    have hreader : Session.Onward acts holds e w.session rest _ rest := h.switched t
    refine .inr ⟨rest, hreader.trans (hreader.feeding.beside hd ?_), fun _ _ =>
      .inr fun hready => ?_⟩
    · exact .of_eq rfl rfl rfl rfl
    · exact hready.resolve_right (by simp)
  | receive => exact absurd rfl hm
  | pump =>
    rcases h.pollPump hd hlive with hcan | ⟨rest', honward, hgets⟩
    · exact .inl hcan
    · exact .inr ⟨rest', honward, fun pauses hp => (hgets pauses hp).imp id fun hready _ => hready⟩
  | writer => exact hbeside (Session.beside_pollWriter _ _) (by simp)
  | drain => exact hbeside (Session.beside_pollDrain _) (by simp)
  | shutDown =>
    rcases hreported.shutDown_eq hlive w.reserves with heq | hcan
    · exact hbeside (heq ▸ .refl _) (by simp)
    · exact .inl hcan
  | close => exact .inl (hreported.cancelled_close hlive _)
  | drop => exact .inl (hreported.cancelled_drop hlive _)
  | elsewhere act use =>
    refine .inr ⟨rest, h.elsewhere hd (hacts act use rfl), fun _ _ => .inr fun hready => ?_⟩
    exact hready.resolve_right (by simp)

end Watched

end PacketWire
