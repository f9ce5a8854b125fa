import PacketWire.Proofs.Endpoint.Intake
import PacketWire.Proofs.Inbox
import PacketWire.Proofs.Session.Moves

/-!
# What sessions report

`Notes s s'` is all that a step may do to what a session reports: a first error is noted together
with the cancelling and stays, and what was cancelled stays cancelled. From a cancelled session
every call gets the terminal error (`Refuses`): the first error, or that the session is closed. As
long as the owner keeps the session, its own end breaks nothing (`Kept`): behind a close without an
error, the tasks end with the news of being cancelled and no other.
-/

namespace PacketWire

theorem Inbox.poll_of_cancelled {σ : Type} [Source σ] (i : Inbox) (s : σ) (r : Reserves) :
    (i.poll true s r).next = .ready none := by
  rw [poll]
  split
  · rfl
  · simp
  · simp

theorem Inbox.poll_of_end {cancelled : Bool} {i : Inbox} {p : Pipe} {r : Reserves}
    (hbuffer : i.buffer = []) (hheld : p.held = []) (hclosed : p.closed = true) :
    (i.poll cancelled p r).next = .ready none := by
  cases cancelled with
  | true => exact i.poll_of_cancelled p r
  | false =>
    have hread (room : Nat) : Source.read room p = (.ready (.ok []), p) := by
      show p.read room = _
      simp [Pipe.read, hheld, hclosed]
    have hgather {i : Inbox} {r : Reserves} (hi : i.phase = .gathering) (hb : i.buffer = []) :
        (i.poll false p r).next = .ready none := by
      rw [poll_of_gathering hi, hread]
      simp [ending, hb]
    by_cases hover : i.phase = .over
    · rw [poll_of_over hover]
    by_cases hphase : i.phase = .gathering
    · exact hgather hphase hbuffer
    · have hphase : i.phase = .draining := by cases hi : i.phase <;> simp_all
      have hnone := Codec.next_of_no_take (c := i.codec) r (Frame.take_nil i.codec.maxFrame)
      rw [poll_of_draining hphase, hbuffer]
      simp only [hnone.1]
      exact hgather rfl hnone.2

namespace Session

variable {τ : Type} {s s' s'' : Session τ}

/-- All that a step may do to what a session reports. -/
structure Notes (s s' : Session τ) : Prop where
  cancelled : s.cancelled = true → s'.cancelled = true
  stays : ∀ e, s.firstError = some e → s'.firstError = some e
  first : s.firstError = none → ∀ e, s'.firstError = some e → e ≠ .cancelled ∧ s'.cancelled = true
  closed : s'.closed = true → s.closed = true ∨ s'.cancelled = true

namespace Notes

theorem of_eq (hcancelled : s'.cancelled = s.cancelled) (hfirst : s'.firstError = s.firstError)
    (hclosed : s'.closed = s.closed) : Notes s s' where
  cancelled h := hcancelled.trans h
  stays _ h := hfirst.trans h
  first h e h' := by
    rw [hfirst, h] at h'
    cases h'
  closed h := .inl (hclosed ▸ h)

theorem refl (s : Session τ) : Notes s s := .of_eq rfl rfl rfl

theorem trans (h : Notes s s') (h' : Notes s' s'') : Notes s s'' where
  cancelled := h'.cancelled ∘ h.cancelled
  stays e := h'.stays e ∘ h.stays e
  first hnone e he := by
    cases hbetween : s'.firstError with
    | none => exact h'.first hbetween e he
    | some e' =>
      obtain ⟨hne, hcan⟩ := h.first hnone e' hbetween
      obtain rfl : e' = e := Option.some.inj ((h'.stays e' hbetween).symm.trans he)
      exact ⟨hne, h'.cancelled hcan⟩
  closed hc := by
    rcases h'.closed hc with hbetween | hcan
    · exact (h.closed hbetween).imp id h'.cancelled
    · exact .inr hcan

end Notes

theorem notes_fail (e : WireError) (s : Session τ) : Notes s (s.fail e) := by
  rw [fail_eq]
  refine ⟨fun _ => rfl, fun f hf => ?_, fun hnone f hf => ?_, fun _ => .inr rfl⟩
  · simp [noted, hf]
  · simp only [noted, hnone] at hf
    split at hf
    · cases hf
    · rename_i he
      cases hf
      exact ⟨by simpa using he, rfl⟩

theorem notes_ended {α : Type} (result : Except WireError α) (s : Session τ) :
    Notes s (s.ended result) := by
  cases result with
  | ok _ => exact .refl s
  | error e => exact notes_fail e s

theorem notes_close (s : Session τ) (r : Reserves) : Notes s (s.close r).1 := by
  unfold close
  split
  · exact .refl s
  · refine ⟨fun _ => rfl, fun _ => id, fun hnone e he => ?_, fun _ => .inr rfl⟩
    exact absurd (hnone.symm.trans he) (by simp)

theorem notes_dropOutbound (s : Session τ) : Notes s s.dropOutbound := by
  unfold dropOutbound
  split <;> exact .of_eq rfl rfl rfl

theorem notes_drop (s : Session τ) (r : Reserves) : Notes s (s.drop r).1 :=
  ((notes_close s r).trans (notes_dropOutbound _)).trans (.of_eq rfl rfl rfl)

theorem notes_shutDown (s : Session τ) (r : Reserves) : Notes s (s.shutDown r).2.1 := by
  unfold shutDown
  split
  · simp only
    split
    · exact (notes_close s r).trans (notes_drop _ _)
    · exact notes_close s r
  · exact .refl s

theorem notes_receive (s : Session τ) (r : Reserves) : Notes s (s.receive r).2.1 := by
  have hread (inbox : Inbox) (inbound : Pipe) : Notes s { s with inbox, inbound } :=
    .of_eq rfl rfl rfl
  unfold receive
  simp only
  split
  · exact hread ..
  · exact hread ..
  · exact (hread ..).trans (notes_fail _ _)
  · exact hread ..

theorem notes_endWriter {α : Type} (result : Except WireError α) (s : Session τ) :
    Notes s (s.endWriter result) :=
  (notes_ended result s).trans (.of_eq rfl rfl rfl)

theorem notes_pollClosing (c : Outbox.Close) (s : Session τ) : Notes s (s.pollClosing c) := by
  have hhand (outbox : Outbox) (outbound : Pipe) : Notes s { s with outbox, outbound } :=
    .of_eq rfl rfl rfl
  unfold pollClosing
  split
  · exact .of_eq rfl rfl rfl
  · exact (hhand ..).trans (notes_endWriter _ _)

theorem notes_pollWriter (s : Session τ) (r : Reserves) : Notes s (s.pollWriter r).1 := by
  have hhand (s : Session τ) (outbox : Outbox) (outbound : Pipe) :
      Notes s { s with outbox, outbound } := .of_eq rfl rfl rfl
  fun_induction pollWriter s r with
  | case1 => exact .refl _
  | case2 s r c => exact notes_pollClosing c s
  | case3 => exact notes_endWriter _ _
  | case4 s r => exact notes_pollClosing _ s
  | case5 => exact .refl _
  | case6 => exact (hhand ..).trans (notes_endWriter _ _)
  | case7 s r hw hcan p ps hq outbox r' hst ih =>
    refine Notes.trans ?_ ih
    exact .of_eq rfl rfl rfl
  | case8 => exact notes_endWriter _ _
  | case9 => exact .of_eq rfl rfl rfl
  | case10 => exact (hhand ..).trans (notes_endWriter _ _)
  | case11 s r f hw hcan n outbox outbound hp ih =>
    refine Notes.trans ?_ ih
    exact .of_eq rfl rfl rfl

section

variable [Transport τ]

theorem notes_releaseTransport (s : Session τ) : Notes s s.releaseTransport := by
  unfold releaseTransport
  split <;> exact .of_eq rfl rfl rfl

theorem notes_endCopy {α : Type} (result : Except WireError α) (s : Session τ) :
    Notes s (s.ended result).releaseTransport :=
  (notes_ended result s).trans (notes_releaseTransport _)

theorem notes_pollPump (s : Session τ) : Notes s s.pollPump := by
  have hcopied (transport : τ) (inbound : Pipe) (pump : CopyTask) :
      Notes s { s with transport, inbound, pump } := .of_eq rfl rfl rfl
  unfold pollPump
  split
  · exact .refl s
  · split
    · exact hcopied ..
    · exact (hcopied ..).trans (notes_endCopy _ _)

theorem notes_pollDrain (s : Session τ) : Notes s s.pollDrain := by
  have hcopied (transport : τ) (outbound : Pipe) (drain : CopyTask) :
      Notes s { s with transport, outbound, drain } := .of_eq rfl rfl rfl
  unfold pollDrain
  split
  · exact .refl s
  · split
    · exact hcopied ..
    · exact (hcopied ..).trans (notes_endCopy _ _)

end

/-! ## Reporting it -/

/-- An error that is noted is no news of being cancelled, and a session that noted one, or was
closed, is cancelled. -/
structure Reported (s : Session τ) : Prop where
  error : ∀ e, s.firstError = some e → e ≠ .cancelled ∧ s.cancelled = true
  closed : s.closed = true → s.cancelled = true

theorem Reported.notes (h : s.Reported) (hn : Notes s s') : s'.Reported where
  error e he := by
    cases hbefore : s.firstError with
    | none => exact hn.first hbefore e he
    | some e' =>
      obtain rfl : e' = e := Option.some.inj ((hn.stays e' hbefore).symm.trans he)
      exact ⟨(h.error e' hbefore).1, hn.cancelled (h.error e' hbefore).2⟩
  closed hc := (hn.closed hc).elim (fun hbefore => hn.cancelled (h.closed hbefore)) id

theorem Reported.cancelled_of_isClosed (h : s.Reported) (hc : s.isClosed = true) :
    s.cancelled = true := by
  unfold isClosed at hc
  rcases Bool.or_eq_true .. ▸ hc with hclosed | hcan
  · exact h.closed hclosed
  · exact hcan

/-- Nothing that is started from here on gets anything but the error `e`. -/
structure Refuses (s : Session τ) (e : WireError) : Prop where
  receive : ∀ r, (s.receive r).1 = .ready (.error e)
  send : ∀ p, s.send p = (.ready (.error e), s)
  offer : ∀ p, s.offer p = (.ready (.error e), s)

theorem refuses_of_cancelled (h : s.cancelled = true) : s.Refuses s.terminalError where
  receive r := by
    unfold Session.receive
    simp only [h, Inbox.poll_of_cancelled]
    rfl
  send p := by
    unfold Session.send Session.offer
    rw [if_pos h]
    split <;> rfl
  offer p := by
    unfold Session.offer
    rw [if_pos h]

/-- At the end of the inbound pipe with nothing left over, there is no packet and no new error. -/
theorem receive_of_end {r : Reserves} (hbuffer : s.inbox.buffer = [])
    (hheld : s.inbound.held = []) (hclosed : s.inbound.closed = true) :
    (s.receive r).1 = .ready (.error s.terminalError) := by
  unfold receive
  simp only [Inbox.poll_of_end hbuffer hheld hclosed]
  rfl

theorem Reported.of_receive (h : s.Reported) {r : Reserves} {e : WireError}
    (he : (s.receive r).1 = .ready (.error e)) : (s.receive r).2.1.terminalError = e := by
  unfold receive at he ⊢
  simp only at he ⊢
  split at he
  · cases he
  · cases he
  · rename_i x hx
    cases he
    have hlive : s.cancelled = false := by
      cases hcan : s.cancelled with
      | false => rfl
      | true =>
        rw [hcan, Inbox.poll_of_cancelled] at hx
        cases hx
    have hnone : s.firstError = none := by
      cases hfirst : s.firstError with
      | none => rfl
      | some f => exact absurd (hlive.symm.trans (h.error f hfirst).2) (by simp)
    simp only [fail_eq, terminalError, noted, hnone, Option.isSome_none, Bool.false_eq_true,
      or_false, if_neg (Inbox.poll_ne_cancelled hx), Option.getD_some]
  · cases he
    rfl

theorem enqueue_error {p : Outgoing} {e : WireError} (h : (s.enqueue p).1 = .ready (.error e)) :
    e = s.terminalError := by
  unfold enqueue at h
  split at h <;> cases h
  rfl

theorem offer_error {p : Outgoing} {e : WireError} (h : (s.offer p).1 = .ready (.error e)) :
    e = s.terminalError := by
  unfold offer at h
  split at h
  · cases h
    rfl
  · exact enqueue_error h

theorem send_error {p : Outgoing} {e : WireError} (h : (s.send p).1 = .ready (.error e)) :
    e = s.terminalError := by
  unfold send at h
  split at h
  · exact offer_error h
  · cases h
    rfl

theorem Reported.terminalError_ne_cancelled (h : s.Reported) : s.terminalError ≠ .cancelled := by
  unfold terminalError
  cases hfirst : s.firstError with
  | none => simp
  | some e => exact (h.error e hfirst).1

/-! ## While the owner sends -/

/-- While the owner sends, the writer is gone and the outbound pipe is closed only behind a
cancelling. -/
structure Kept (s : Session τ) : Prop where
  sends : s.hasOutbound = true
  pump : ∀ c, s.pump.copy = some c → c.phase ≠ .closing
  drain : ∀ c, s.drain.copy = some c → c.phase ≠ .closing
  opened : s.writer.isClosing = false
  writer : s.writer.isFinished = true → s.cancelled = true
  outbound : s.outbound.closed = true → s.cancelled = true

/-- What a step makes of a session that the owner keeps: one cancelled without an error has none
now. -/
structure Bears (s s' : Session τ) : Prop where
  kept : s'.Kept
  quiet : s.cancelled = true → s.firstError = none → s'.firstError = none

namespace Kept

theorem of_eq (h : s.Kept) (hcancelled : s.cancelled = true → s'.cancelled = true)
    (hsends : s'.hasOutbound = s.hasOutbound) (hpump : s'.pump.copy = s.pump.copy)
    (hdrain : s'.drain.copy = s.drain.copy) (hwriter : s'.writer = s.writer)
    (houtbound : s'.outbound.closed = s.outbound.closed) : s'.Kept where
  sends := hsends.trans h.sends
  pump c hc := h.pump c (hpump ▸ hc)
  drain c hc := h.drain c (hdrain ▸ hc)
  opened := hwriter ▸ h.opened
  writer hw := hcancelled (h.writer (hwriter ▸ hw))
  outbound ho := hcancelled (h.outbound (houtbound ▸ ho))

theorem fail (h : s.Kept) (e : WireError) : (s.fail e).Kept := by
  rw [fail_eq]
  exact h.of_eq (fun _ => rfl) rfl (CopyTask.copy_wake _) (CopyTask.copy_wake _) rfl rfl

/-- A step that touches no task and no pipe on the way out. -/
theorem bears_of_eq (h : s.Kept) (hcancelled : s'.cancelled = s.cancelled)
    (hfirst : s'.firstError = s.firstError) (hsends : s'.hasOutbound = s.hasOutbound)
    (hpump : s'.pump = s.pump) (hdrain : s'.drain = s.drain) (hwriter : s'.writer = s.writer)
    (houtbound : s'.outbound = s.outbound) : s.Bears s' where
  kept := h.of_eq (fun hc => hcancelled.trans hc) hsends (by rw [hpump]) (by rw [hdrain]) hwriter
    (by rw [houtbound])
  quiet _ hnone := hfirst.trans hnone

theorem bears_close (h : s.Kept) (r : Reserves) : s.Bears (s.close r).1 := by
  unfold close
  split
  · exact ⟨h, fun _ => id⟩
  · exact ⟨h.of_eq (fun _ => rfl) rfl (CopyTask.copy_wake _) (CopyTask.copy_wake _) rfl rfl,
      fun _ => id⟩

theorem bears_receive (h : s.Kept) (r : Reserves) : s.Bears (s.receive r).2.1 := by
  have hread (inbox : Inbox) (inbound : Pipe) : Kept { s with inbox, inbound } :=
    h.of_eq id rfl rfl rfl rfl rfl
  unfold receive
  simp only
  split
  · exact ⟨hread .., fun _ => id⟩
  · exact ⟨hread .., fun _ => id⟩
  · rename_i e he
    refine ⟨(hread ..).fail e, fun hcan => ?_⟩
    rw [hcan, Inbox.poll_of_cancelled] at he
    cases he
  · exact ⟨hread .., fun _ => id⟩

theorem pollWriter_of_cancelled (h : s.Kept) (hcan : s.cancelled = true) (r : Reserves) :
    (s.pollWriter r).1 = s ∨
      (s.pollWriter r).1 = s.endWriter (.error .cancelled : Except WireError Unit) := by
  unfold pollWriter
  split
  · exact .inl rfl
  · rename_i c hw
    have hclosing : s.writer.isClosing = true := by rw [hw]; rfl
    exact absurd (h.opened.symm.trans hclosing) (by simp)
  · exact .inr (by rw [if_pos hcan])
  · exact .inr (by rw [if_pos hcan])

theorem bears_pollWriter (h : s.Kept) (htidy : s.writer.Tidy s.outbox)
    (hsenders : s.queue.senders ≠ 0) (r : Reserves) : s.Bears (s.pollWriter r).1 where
  quiet hcan hnone := by
    rcases h.pollWriter_of_cancelled hcan r with heq | heq <;> rw [heq]
    · exact hnone
    · simp [endWriter_error, fail_eq, noted, hnone]
  kept := by
    have hopened := h.opened
    have hpolled := polled_pollWriter s r htidy
    generalize (s.pollWriter r).1 = s' at hpolled
    cases hpolled with
    | rests ended => exact h
    | waits outbox outbound writer items live tidy codec closed held taken closing =>
      refine ⟨h.sends, h.pump, h.drain, ?_, fun hw => ?_, fun ho => ?_⟩
      · show writer.isClosing = false
        cases hc : writer.isClosing with
        | false => rfl
        | true =>
          rcases closing hc with hbefore | ⟨-, hzero⟩
          · exact absurd (hbefore.symm.trans hopened) (by simp)
          · exact absurd hzero hsenders
      · exact absurd (live.symm.trans hw) (by simp)
      · exact h.outbound (closed.symm.trans ho)
    | ends outbox outbound codec held closing =>
      rcases closing with hbefore | ⟨-, hzero⟩
      · exact absurd (hbefore.symm.trans hopened) (by simp)
      · exact absurd hzero hsenders
    | fails outbox outbound e codec held cause =>
      rw [endWriter_error, fail_eq]
      exact ⟨h.sends, fun c hc => h.pump c (CopyTask.copy_wake _ ▸ hc),
        fun c hc => h.drain c (CopyTask.copy_wake _ ▸ hc), rfl, fun _ => rfl, fun _ => rfl⟩

section

variable [Transport τ]

theorem releaseTransport (h : s.Kept) : s.releaseTransport.Kept := by
  unfold Session.releaseTransport
  split
  · exact h.of_eq id rfl rfl rfl rfl rfl
  · exact h

theorem bears_pollPump (h : s.Kept) : s.Bears s.pollPump := by
  have hkept (transport : τ) (inbound : Pipe) (pump : CopyTask)
      (hpump : ∀ c, pump.copy = some c → c.phase ≠ .closing) :
      Kept { s with transport, inbound, pump } :=
    ⟨h.sends, hpump, h.drain, h.opened, h.writer, h.outbound⟩
  unfold pollPump
  split
  · exact ⟨h, fun _ => id⟩
  · rename_i c due hrunning
    have hphase : c.phase ≠ .closing := h.pump c (by rw [hrunning]; rfl)
    split
    · rename_i c' transport inbound hp
      refine ⟨hkept _ _ _ fun d hd => ?_, fun _ => id⟩
      cases hd
      exact Copy.phase_ne_closing hp
    · rename_i result transport inbound hp
      have hended := hkept transport inbound.close .finished fun d hd => by cases hd
      constructor
      · refine Kept.releaseTransport ?_
        cases result with
        | ok _ => exact hended
        | error e => exact hended.fail e
      · intro hcan hnone
        rw [(releaseTransport_cancelled _).2]
        rw [hcan, Copy.poll_of_cancelled hphase] at hp
        cases hp
        simp [ended, fail_eq, noted, hnone]

end

/-- While the outbound pipe is open, the drain ends only with an error, which cancels the
session. -/
theorem bears_pollDrain [Transport τ] {s : Session (Recorded τ)} (h : s.Kept) :
    s.Bears s.pollDrain := by
  unfold pollDrain
  split
  · exact ⟨h, fun _ => id⟩
  · rename_i c due hrunning
    have hphase : c.phase ≠ .closing := h.drain c (by rw [hrunning]; rfl)
    have hstops (hcan : s.cancelled = true) : c.poll s.cancelled s.outbound s.transport =
        (.done (.error .cancelled), s.outbound, s.transport) := by
      rw [hcan, Copy.poll_of_cancelled hphase]
    have hcopied : c.Copied s.outbound s.transport _ :=
      Copy.copied_poll s.cancelled s.transport fun hc => absurd hc hphase
    split <;> rename_i hp <;> rw [hp] at hcopied hstops
    · rename_i c' outbound transport
      obtain ⟨-, hclosed, hend⟩ := hcopied
      refine ⟨⟨h.sends, h.pump, fun d hd hphase' => ?_, h.opened, h.writer, fun ho => ?_⟩,
        fun _ => id⟩
      · cases hd
        cases hstops (h.outbound (hclosed ▸ (hend hphase').2))
      · exact h.outbound (hclosed ▸ ho)
    · rename_i result outbound transport
      have hquiet (hcan : s.cancelled = true) (hnone : s.firstError = none) :
          (Session.releaseTransport (ended result
            { s with transport, outbound := outbound.close, drain := .finished })).firstError =
            none := by
        cases hstops hcan
        rw [(releaseTransport_cancelled _).2]
        simp [ended, fail_eq, noted, hnone]
      cases result with
      | ok total => cases hstops (h.outbound hcopied.2.2.1)
      | error e =>
        refine ⟨Kept.releaseTransport ?_, hquiet⟩
        show Kept (Session.fail e _)
        rw [fail_eq]
        exact ⟨h.sends, fun c hc => h.pump c (CopyTask.copy_wake _ ▸ hc), fun c hc => (by cases hc),
          h.opened, fun _ => rfl, fun _ => rfl⟩

end Kept

end Session

/-- Whether the owner gives up sending, as it does first in a shutdown, or the session. -/
def Move.forsakes {τ : Type} : Move τ → Bool
  | .stopSending | .shutDown | .drop => true
  | _ => false

namespace Watched

variable {τ : Type} [Transport τ] {base : Codec} {w : Watched τ}

theorem notes_step (w : Watched τ) (m : Move τ) : w.session.Notes (w.step m).session := by
  cases m with
  | send who waited p =>
    rw [step]
    split
    · rcases w.send_cases who waited p with heq | ⟨-, heq⟩ <;> rw [heq]
      · exact .refl _
      · exact .of_eq rfl rfl rfl
    · exact .refl _
  | clone who =>
    rw [step, clone_eq]
    split <;> exact .of_eq rfl rfl rfl
  | leave =>
    rw [step]
    split <;> exact .of_eq rfl rfl rfl
  | stopSending => exact Session.notes_dropOutbound _
  | switchReader t => exact .of_eq rfl rfl rfl
  | switchWriter t => exact .of_eq rfl rfl rfl
  | switch t => exact .of_eq rfl rfl rfl
  | receive => exact Session.notes_receive ..
  | pump => exact Session.notes_pollPump _
  | writer => exact Session.notes_pollWriter ..
  | drain => exact Session.notes_pollDrain _
  | shutDown => exact Session.notes_shutDown ..
  | close => exact Session.notes_close ..
  | drop => exact Session.notes_drop ..
  | elsewhere act use => exact .of_eq rfl rfl rfl

theorem notes_run (w : Watched τ) (moves : List (Move τ)) :
    w.session.Notes (w.run moves).session := by
  induction moves generalizing w with
  | nil => exact .refl _
  | cons m moves ih => exact (w.notes_step m).trans (ih (w.step m))

omit [Transport τ] in
theorem kept_start (formats : Compression.Formats) (t : τ) (settings : Settings)
    (r : Reserves) : (start formats t settings r).session.Kept where
  sends := rfl
  pump c hc := by
    cases hc
    simp
  drain c hc := by
    cases hc
    simp
  opened := rfl
  writer h := by cases h
  outbound h := absurd (h.symm.trans (Pipe.closed_ofCapacity _)) (by simp)

theorem bears_step (h : w.session.Kept) (ho : w.Ordered base) (hc : w.Counted) {m : Move τ}
    (hm : m.forsakes = false) : w.session.Bears (w.step m).session := by
  have hsame {s : Session (Recorded τ)} (hs : s = w.session) : w.session.Bears s :=
    hs.symm ▸ ⟨h, fun _ => id⟩
  cases m with
  | send who waited p =>
    rw [step]
    split
    · rcases w.send_cases who waited p with heq | ⟨-, heq⟩ <;> rw [heq]
      · exact hsame rfl
      · exact h.bears_of_eq rfl rfl rfl rfl rfl rfl rfl
    · exact hsame rfl
  | clone who =>
    rw [step, clone_eq]
    split
    · exact h.bears_of_eq rfl rfl rfl rfl rfl rfl rfl
    · exact hsame rfl
  | leave =>
    rw [step]
    split
    · exact h.bears_of_eq rfl rfl rfl rfl rfl rfl rfl
    · exact hsame rfl
  | switchReader t => exact h.bears_of_eq rfl rfl rfl rfl rfl rfl rfl
  | switchWriter t => exact h.bears_of_eq rfl rfl rfl rfl rfl rfl rfl
  | switch t => exact h.bears_of_eq rfl rfl rfl rfl rfl rfl rfl
  | receive => exact h.bears_receive _
  | pump => exact h.bears_pollPump
  | writer =>
    have howner : w.has .owner = true := h.sends
    exact h.bears_pollWriter ho.tidy (Nat.ne_of_gt (hc.senders_pos howner)) _
  | drain => exact h.bears_pollDrain
  | close => exact h.bears_close _
  | elsewhere act use => exact h.bears_of_eq rfl rfl rfl rfl rfl rfl rfl
  | stopSending | shutDown | drop => cases hm

/-- While the owner sends, what was cancelled without an error stays without. -/
theorem bears_run (h : w.session.Kept) (ho : w.Ordered base) (hs : w.Staffed)
    (moves : List (Move τ)) (hm : ∀ m ∈ moves, m.forsakes = false) :
    w.session.Bears (w.run moves).session := by
  induction moves generalizing w with
  | nil => exact ⟨h, fun _ => id⟩
  | cons m moves ih =>
    have hstep := bears_step h ho hs.counted (hm m (.head _))
    have hrest := ih hstep.kept (ho.step m) (hs.step ho m) fun m' hm' => hm m' (.tail _ hm')
    exact ⟨hrest.kept, fun hcan hnone =>
      hrest.quiet ((w.notes_step m).cancelled hcan) (hstep.quiet hcan hnone)⟩

/-! ## The report -/

omit [Transport τ] in
theorem attempt_error {who : Sender} {waited : Bool} {p : Outgoing} {e : WireError}
    (h : (w.attempt who waited p).1 = .ready (.error e)) : e = w.session.terminalError := by
  unfold attempt at h
  split at h
  · exact Session.enqueue_error h
  · cases who with
    | owner => exact Session.send_error h
    | handle => exact Session.offer_error h

omit [Transport τ] in
theorem reported_start (formats : Compression.Formats) (t : τ) (settings : Settings)
    (r : Reserves) : (start formats t settings r).session.Reported :=
  ⟨fun _ h => (by cases h), fun h => (by cases h)⟩

/-- An error that is noted is never that of being cancelled, has cancelled the session and stays;
whatever is started behind it gets that error. A session that is over without one says that it is
closed, and tearing it down adds none. -/
theorem reports_first_error (formats : Compression.Formats) (settings : Settings) (t : τ)
    (r : Reserves) (moves : List (Move τ)) :
    let w := (start formats t settings r).run moves
    (∀ e, w.session.firstError = some e →
      e ≠ .cancelled ∧ w.session.cancelled = true ∧ w.session.Refuses e ∧
        ∀ more, (w.run more).session.firstError = some e) ∧
    (w.session.firstError = none →
      (w.session.isClosed = true → w.session.Refuses .connectionClosed) ∧
      (w.session.inbox.buffer = [] → w.session.inbound.held = [] →
        w.session.inbound.closed = true →
          (w.session.receive w.reserves).1 = .ready (.error .connectionClosed))) ∧
    (∀ e, (w.session.receive w.reserves).1 = .ready (.error e) →
      e ≠ .cancelled ∧ (w.step .receive).session.terminalError = e) ∧
    (∀ who waited p e, (w.attempt who waited p).1 = .ready (.error e) →
      e ≠ .cancelled ∧ w.session.terminalError = e) ∧
    (∀ more, (∀ m ∈ moves ++ more, m.forsakes = false) → w.session.isClosed = true →
      w.session.firstError = none →
        (w.run more).session.firstError = none ∧
          (w.run more).session.Refuses .connectionClosed) := by
  intro w
  have hreported : w.session.Reported :=
    (reported_start formats t settings r).notes (notes_run _ moves)
  have hterminal {s : Session (Recorded τ)} (hnone : s.firstError = none) :
      s.terminalError = .connectionClosed := by rw [Session.terminalError, hnone, Option.getD_none]
  refine ⟨fun e he => ?_, fun hnone => ⟨fun hclosed => ?_, fun hbuffer hheld hend => ?_⟩,
    fun e he => ?_, fun who waited p e he => ?_, fun more hmoves hclosed hnone => ?_⟩
  · obtain ⟨hne, hcan⟩ := hreported.error e he
    have hrefuses := Session.refuses_of_cancelled hcan
    rw [Session.terminalError, he, Option.getD_some] at hrefuses
    exact ⟨hne, hcan, hrefuses, fun more => (notes_run w more).stays e he⟩
  · exact hterminal hnone ▸
      Session.refuses_of_cancelled (hreported.cancelled_of_isClosed hclosed)
  · exact hterminal hnone ▸ Session.receive_of_end hbuffer hheld hend
  · have hafter : (w.step .receive).session.terminalError = e := hreported.of_receive he
    refine ⟨?_, hafter⟩
    rw [← hafter]
    exact (hreported.notes (w.notes_step .receive)).terminalError_ne_cancelled
  · rw [attempt_error he]
    exact ⟨hreported.terminalError_ne_cancelled, rfl⟩
  · rw [List.forall_mem_append] at hmoves
    have hordered := Ordered.start formats t settings r
    have hbegin := bears_run (kept_start formats t settings r) hordered
      (Staffed.start formats t settings r) moves hmoves.1
    have hstaffed : w.Staffed := (Staffed.start formats t settings r).run hordered moves
    have hbears := bears_run hbegin.kept (hordered.run moves) hstaffed more hmoves.2
    have hcan := hreported.cancelled_of_isClosed hclosed
    have hlater := hbears.quiet hcan hnone
    exact ⟨hlater, hterminal hlater ▸
      Session.refuses_of_cancelled ((notes_run w more).cancelled hcan)⟩

/-- A transport that was reset: the pump sees it first, and what the drain sees goes unnoted. Where
nothing fails, nobody hears of the broken pipe. -/
theorem reports_first_error_reset :
    let reset : WireError := .io (.ofKind (.other "ConnectionReset"))
    let t : Script :=
      { reads := [.fail (.ofKind (.other "ConnectionReset"))],
        writes := [.fail (.ofKind .brokenPipe)] }
    let moves : List (Move Script) :=
      [.send .owner false { id := 5, payload := [7] }, .writer, .pump]
    let teardown : List (Move Script) := [.drain, .writer, .pump, .receive]
    let w := (start Compression.Kind.compressor t {} {}).run moves
    let w' := (start Compression.Kind.compressor {} {} {}).run (moves.take 2 ++ [.close])
    (w.session.firstError = some reset ∧ w.session.Refuses reset ∧
      (w.run teardown).session.firstError = some reset) ∧
    w'.session.isClosed = true ∧ (w'.run teardown).session.firstError = none ∧
      (w'.run teardown).session.Refuses .connectionClosed := by
  intro reset t moves teardown w w'
  have herror : w.session.firstError = some reset := by decide +kernel
  have hclosed : w'.session.isClosed = true := by decide +kernel
  have hnone : w'.session.firstError = none := by decide +kernel
  obtain ⟨-, -, hrefuses, hstays⟩ := (reports_first_error _ {} t {} moves).1 reset herror
  obtain ⟨hquiet, hrefuses'⟩ :=
    (reports_first_error _ {} ({} : Script) {} (moves.take 2 ++ [.close])).2.2.2.2 teardown
      (by decide) hclosed hnone
  exact ⟨⟨herror, hrefuses, hstays teardown⟩, hclosed, hquiet, hrefuses'⟩

end Watched

end PacketWire
