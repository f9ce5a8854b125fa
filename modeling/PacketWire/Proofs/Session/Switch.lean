import Mathlib.Data.List.Infix
import PacketWire.Proofs.Session.Moves

/-!
# Switching while packets wait

A packet is framed under the threshold in force when the writer takes it off the queue, which may
be later than the one it was sent under. So a switch cuts the row of frames where the writer has
come to: the packets framed before keep their thresholds, and those still waiting and those sent
afterwards get the new one.
-/

namespace PacketWire.Watched

variable {τ : Type} [Transport τ] {base : Codec} {w : Watched τ}

omit [Transport τ] in
theorem threshold_pollWriter (h : w.Ordered base) : w.pollWriter.threshold = w.threshold := by
  have hpolled := Session.polled_pollWriter w.session w.reserves h.tidy
  show (w.session.pollWriter w.reserves).1.outflow.outbox.codec.threshold = w.threshold
  generalize (w.session.pollWriter w.reserves).1 = s' at hpolled
  cases hpolled with
  | rests ended => rfl
  | waits outbox outbound writer items live tidy codec =>
    exact congrArg Codec.threshold codec
  | ends outbox outbound codec =>
    rw [Session.outflow_endWriter]
    exact congrArg Codec.threshold codec
  | fails outbox outbound e codec =>
    rw [Session.outflow_endWriter]
    exact congrArg Codec.threshold codec

theorem threshold_pollDrain (h : w.Ordered base) :
    w.session.pollDrain.outbox.codec.threshold = w.threshold := by
  have hpolled := Session.polled_pollDrain w.session h.closing
  generalize w.session.pollDrain = s' at hpolled
  cases hpolled with
  | rests ended => rfl
  | waits => rfl
  | ends c result outbound transport running copied cause =>
    have hs := (Session.aside_endCopy result
      { w.session with transport, outbound := outbound.close, drain := .finished }).outflow
    exact congrArg (fun o : Outflow => o.outbox.codec.threshold) hs

theorem threshold_step (h : w.Ordered base) {m : Move τ} (hm : m.switchesWriter = false) :
    (w.step m).threshold = w.threshold := by
  have hstep := w.stepped m
  generalize w.step m = w' at hstep
  cases hstep with
  | sends who waited p => rfl
  | switches m t inbox hswitches => exact absurd (hswitches.symm.trans hm) (by simp)
  | writer => exact threshold_pollWriter h
  | drain => exact threshold_pollDrain h
  | aside m w' goes => exact goes.threshold_eq

/-- As long as the writer is not switched, all is sent and framed under one threshold. -/
theorem run_under_threshold (h : w.Ordered base) (moves : List (Move τ))
    (hm : ∀ m ∈ moves, m.switchesWriter = false) :
    (∃ new, (w.run moves).sent = w.sent ++ stamp w.threshold new) ∧
      ∃ new, (w.run moves).framed = w.framed ++ stamp w.threshold new := by
  induction moves generalizing w with
  | nil => exact ⟨⟨[], (List.append_nil _).symm⟩, ⟨[], (List.append_nil _).symm⟩⟩
  | cons m moves ih =>
    obtain ⟨⟨sent, hsent⟩, ⟨framed, hframed⟩⟩ := ih (h.step m) fun m' hm' => hm m' (.tail _ hm')
    obtain ⟨sent', hsent'⟩ := w.sent_step m
    obtain ⟨framed', hframed', -⟩ := w.framed_step m
    rw [threshold_step h (hm m (.head _))] at hsent hframed
    refine ⟨⟨sent' ++ sent, ?_⟩, ⟨framed' ++ framed, ?_⟩⟩
    · show ((w.step m).run moves).sent = _
      rw [hsent, hsent', stamp_append, List.append_assoc]
    · show ((w.step m).run moves).framed = _
      rw [hframed, hframed', stamp_append, List.append_assoc]

/-- Every packet framed behind a switch is framed under the new threshold, and one framed before
keeps its own. So the switch comes where the call came in the row of sends, or before that by the
packets that were waiting. -/
theorem switch_separates (formats : Compression.Formats) (settings : Settings) (t : τ)
    (r : Reserves) (before later : List (Move τ)) (threshold : Int32)
    (hlater : ∀ m ∈ later, m.switchesWriter = false) :
    let codec := settings.codec.build formats
    let call := (start formats t settings r).run before
    let w := (start formats t settings r).run (before ++ .switch threshold :: later)
    (∃ new, w.framed = call.framed ++ stamp threshold new) ∧
      w.framed.drop call.sent.length <+: w.sent.drop call.sent.length ∧
      packets call.framed <+: packets call.sent ∧
      (call.session.writer.isFinished = false →
        packets call.sent = packets call.framed ++ call.session.queue.items) ∧
      packets w.framed <+: packets w.sent ∧ w.accepted <+: codec.frames w.framed := by
  intro codec call w
  have hcall : call.Ordered codec := (Ordered.start formats t settings r).run before
  have hswitched : (call.step (.switch threshold)).Ordered codec := hcall.step _
  have hw : w = (call.step (.switch threshold)).run later := run_append ..
  have hordered : w.Ordered codec := hw ▸ hswitched.run later
  obtain ⟨⟨sent, hsent⟩, ⟨framed, hframed⟩⟩ := run_under_threshold hswitched later hlater
  rw [← hw] at hsent hframed
  have hsent : w.sent = call.sent ++ stamp threshold sent := hsent
  have hframed : w.framed = call.framed ++ stamp threshold framed := hframed
  refine ⟨⟨framed, hframed⟩, ?_, hcall.served, hcall.queued, hordered.served,
    hordered.accepted_prefix⟩
  -- at the call no more is framed than sent, so what follows the sends is under the new threshold
  have hlength : call.framed.length ≤ call.sent.length := by
    simpa using hcall.served.length_le
  have hkept : call.framed.drop call.sent.length = [] := List.drop_of_length_le hlength
  have hserved := hordered.served.drop call.sent.length
  rw [drop_packets, drop_packets, hframed, hsent, List.drop_left, List.drop_append, hkept,
    List.nil_append, drop_stamp, packets_stamp, packets_stamp] at hserved
  rw [hframed, hsent, List.drop_left, List.drop_append, hkept, List.nil_append, drop_stamp]
  exact hserved.map _

/-- One packet framed, one waiting and one sent afterwards. -/
theorem switch_separates_three :
    let p : Outgoing := { id := 5, payload := [7] }
    let q : Outgoing := { id := 6, payload := [1] }
    let o : Outgoing := { id := 7, payload := [] }
    let before : List (Move Script) := [.send .owner false p, .writer, .send .owner false q]
    let later : List (Move Script) := [.send .owner false o, .writer, .drain]
    let begin := start Compression.Kind.compressor ({} : Script) {} {}
    let call := begin.run before
    let w := begin.run (before ++ .switch 64 :: later)
    (∀ m ∈ later, m.switchesWriter = false) ∧
      call.sent = stamp (-1) [p, q] ∧ call.framed = stamp (-1) [p] ∧
      w.sent = stamp (-1) [p, q] ++ stamp 64 [o] ∧ w.framed = stamp (-1) [p] ++ stamp 64 [q, o] ∧
      w.accepted = [2, 5, 7, 3, 0, 6, 1, 2, 0, 7] ∧
      (∃ new, w.framed = call.framed ++ stamp 64 new) ∧
      w.framed.drop call.sent.length <+: w.sent.drop call.sent.length := by
  intro p q o before later begin call w
  have hlater : ∀ m ∈ later, m.switchesWriter = false := by decide
  have hswitch :=
    switch_separates Compression.Kind.compressor {} ({} : Script) {} before later 64 hlater
  exact ⟨hlater, by decide +kernel, by decide +kernel, by decide +kernel, by decide +kernel,
    by decide +kernel, hswitch.1, hswitch.2.1⟩

/-- A packet that waits when the writer is switched is framed under another threshold than it was
sent under. -/
theorem switch_reaches_waiting :
    let p : Outgoing := { id := 5, payload := [7] }
    let w := (start Compression.Kind.compressor ({} : Script) {} {}).run
      [.send .owner false p, .switch 64, .writer, .drain]
    w.sent = stamp (-1) [p] ∧ w.framed = stamp 64 [p] ∧ ¬ w.framed <+: w.sent ∧
      w.accepted = [3, 0, 5, 7] :=
  ⟨by decide +kernel, by decide +kernel, by decide +kernel, by decide +kernel⟩

end PacketWire.Watched
