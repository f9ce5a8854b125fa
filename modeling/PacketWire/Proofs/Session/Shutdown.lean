import Mathlib.Control.Monad.Basic
import PacketWire.Proofs.Session.Moves

/-!
# Shutting down

If the owner does not give a session up and no error is noted, then no task was ever cancelled
before the writer and the drain had come to their ends, and nothing was lost. So a shutdown that
succeeds has delivered the frames of every packet that was sent.
-/

namespace PacketWire

namespace Session

variable {τ : Type} {s : Session τ}

/-- A shutdown succeeds only behind the writer and the drain, and where no error is noted. -/
theorem of_shutDown_ok {r : Reserves} (h : (s.shutDown r).1 = .ready (.ok ())) :
    s.writer.isFinished = true ∧ s.drain.isFinished = true ∧ s.firstError = none := by
  unfold shutDown at h
  split at h
  · rename_i hboth
    have hfirst : (s.close r).1.firstError = s.firstError := by
      unfold close
      split <;> rfl
    simp only at h
    split at h
    · rw [hfirst] at h
      refine ⟨by simp_all, by simp_all, ?_⟩
      cases hf : s.firstError with
      | none => rfl
      | some e => simp [hf] at h
    · cases h
  · cases h

end Session

/-! ## Intact runs -/

namespace Watched

variable {τ : Type} [Transport τ] {base : Codec} {w : Watched τ}

/-- Nothing is lost unless an error is noted. -/
def Intact (base : Codec) (w : Watched τ) : Prop :=
  w.session.firstError = none →
    w.session.outflow.Whole base w.session.cancelled w.sent w.framed

namespace Intact

omit [Transport τ] in
theorem start (formats : Compression.Formats) (t : τ) (settings : Settings) (r : Reserves) :
    (Watched.start formats t settings r).Intact (settings.codec.build formats) := fun _ =>
  { stopped := fun h => by cases h
    flow := fun h => by cases h
    served := fun h => by cases h
    drained := fun h => by cases h }

omit [Transport τ] in
theorem aside (h : w.Intact base) {w' : Watched τ} (goes : w.Aside w')
    (calm : w.session.Calm w'.session) : w'.Intact base := by
  intro hnone
  have hwhole := h (goes.firstError hnone)
  rw [goes.outflow, goes.sent, goes.framed]
  refine ⟨fun hcan => ?_, hwhole.flow, hwhole.served, hwhole.drained⟩
  rcases calm hnone hcan with hbefore | ⟨hw, hd⟩
  · exact hwhole.stopped hbefore
  · exact ⟨hw, Session.CopyTask.isFinished_iff.mp hd⟩

omit [Transport τ] in
theorem pollWriter (h : w.Intact base) (ho : w.Ordered base) (hs : w.Staffed) :
    w.pollWriter.Intact base := by
  cases hlive : w.session.writer.isFinished with
  | true => rwa [w.pollWriter_of_finished hlive]
  | false =>
    have hpolled := Session.polled_pollWriter w.session w.reserves ho.tidy
    show (w.session.pollWriter w.reserves).1.firstError = none →
      (w.session.pollWriter w.reserves).1.outflow.Whole base
        (w.session.pollWriter w.reserves).1.cancelled w.sent
        (w.framed ++ stamp w.threshold w.session.encoded)
    generalize (w.session.pollWriter w.reserves).1 = s' at hpolled
    intro hnone
    cases hpolled with
    | rests ended => exact absurd (ended.symm.trans hlive) (by simp)
    | waits outbox outbound writer items live tidy codec closed held taken closing =>
      exact (h hnone).onward hlive live
    | ends outbox outbound codec held closing =>
      have htaken : w.session.queue.items = w.session.encoded := by
        rcases closing with hc | ⟨hall, -⟩
        · have hempty := (hs.closing hc).1
          rw [hempty, Session.encoded_of_no_items hempty]
        · exact hall
      rw [Session.outflow_endWriter]
      exact (h hnone).finish ho hlive held htaken
    | fails outbox outbound e codec held cause =>
      -- only being cancelled goes unnoted, and then the writer had ended before
      rw [Session.endWriter_error, Session.fail_eq] at hnone
      obtain ⟨he, hnone⟩ := Session.noted_eq_none_iff.mp hnone
      have hstopped := (h hnone).stopped (cause he)
      exact absurd (hstopped.1.symm.trans hlive) (by simp)

theorem pollDrain (h : w.Intact base) (ho : w.Ordered base) :
    Intact base { w with session := w.session.pollDrain } := by
  have hpolled := Session.polled_pollDrain w.session ho.closing
  generalize w.session.pollDrain = s' at hpolled
  intro hnone
  cases hpolled with
  | rests ended => exact h hnone
  | waits c c' due outbound transport running copied => exact (h hnone).drains rfl running copied
  | ends c result outbound transport running copied cause =>
    have haside := Session.aside_endCopy result
      { w.session with transport, outbound := outbound.close, drain := .finished }
    have hwhole := h (haside.firstError hnone)
    simp only [Session.releaseTransport_cancelled] at hnone ⊢
    rw [(Session.aside_releaseTransport _).outflow]
    cases result with
    | ok total => exact hwhole.drained_ok ho rfl running copied
    | error e =>
      -- the error would be noted, unless the drain was told to stop, where it has ended already
      rw [show Session.ended (.error e : Except WireError Nat) _ = Session.fail e _ from rfl,
        Session.fail_eq] at hnone
      have he := (Session.noted_eq_none_iff.mp hnone).1
      have hstopped := (hwhole.stopped (cause (by rw [he]))).2
      rw [show w.session.outflow.drain = some c from running] at hstopped
      cases hstopped

theorem step (h : w.Intact base) (ho : w.Ordered base) (hs : w.Staffed) {m : Move τ}
    (hm : m.abandons = false) : (w.step m).Intact base := by
  have hstep := w.stepped m
  generalize w.step m = w' at hstep
  cases hstep with
  | sends who waited p hw hr => exact fun hnone => (h hnone).push ho hr w.threshold p
  | switches m t => exact fun hnone => (h hnone).switch t
  | writer => exact h.pollWriter ho hs
  | drain => exact h.pollDrain ho
  | aside m w' goes calm => exact h.aside goes (calm hm)

theorem run (h : w.Intact base) (ho : w.Ordered base) (hs : w.Staffed) (moves : List (Move τ))
    (hm : ∀ m ∈ moves, m.abandons = false) : (w.run moves).Intact base := by
  induction moves generalizing w with
  | nil => exact h
  | cons m moves ih =>
    exact ih (h.step ho hs (hm m (.head _))) (ho.step m) (hs.step ho m)
      fun m' hm' => hm m' (.tail _ hm')

end Intact

/-! ## Delivery -/

/-- The transport has taken a prefix of the frames of the packets sent, in their order. If the owner
is there and its shutdown succeeds, it took all of them, and was shut down behind them. -/
theorem delivers_in_order (formats : Compression.Formats) (settings : Settings) (t : τ)
    (r : Reserves) (moves : List (Move τ)) :
    let codec := settings.codec.build formats
    let w := (Watched.start formats t settings r).run moves
    w.accepted <+: codec.frames w.framed ∧
      packets w.framed <+: packets w.sent ∧
      (∀ x ∈ w.framed, (codec.switch x.threshold).accepts x.packet = true) ∧
      (w.session.writer.isFinished = false →
        packets w.sent = packets w.framed ++ w.session.queue.items) ∧
      (∀ m, ∃ new, (w.step m).framed = w.framed ++ stamp w.threshold new ∧
        new <+: w.session.queue.items) ∧
      ((∀ m ∈ moves, m.abandons = false) →
        (w.session.shutDown w.reserves).1 = .ready (.ok ()) →
          packets w.framed = packets w.sent ∧ w.accepted = codec.frames w.framed ∧
            w.session.transport.log.getLast? = some .shutdown) := by
  intro codec w
  have hordered : w.Ordered codec := (Ordered.start formats t settings r).run moves
  refine ⟨hordered.accepted_prefix, hordered.served, hordered.encodable, hordered.queued,
    w.framed_step, fun hmoves hok => ?_⟩
  obtain ⟨hw, hd, hnone⟩ := Session.of_shutDown_ok hok
  have hintact : w.Intact codec :=
    (Intact.start formats t settings r).run (Ordered.start formats t settings r)
      (Staffed.start formats t settings r) moves hmoves
  have hwhole := hintact hnone
  have hdrain : w.session.outflow.drain = none := Session.CopyTask.isFinished_iff.mp hd
  refine ⟨hwhole.served hw, ?_, (hwhole.drained hdrain).2⟩
  have hflow := hwhole.flow hw
  rwa [Outflow.underway, hdrain, List.append_nil] at hflow

/-- Through a pipe that is shorter than the second frame, onto a slow transport. -/
theorem delivers_in_order_slowly :
    let settings : Settings :=
      { pipe := { chunk := 3, sendQueue := some 2, outbound := .bounded 4 } }
    let t : Script :=
      { writes := [.accept 1, .pending, .fail (.ofKind .interrupted), .accept 2] }
    let moves : List (Move Script) :=
      [.send .owner false { id := 5, payload := [7] }, .clone .owner, .writer, .drain, .switch 64,
        .send .handle false { id := 6, payload := [1, 2] }, .writer, .drain, .leave, .stopSending,
        .writer, .drain, .writer, .drain, .pump, .shutDown]
    let w := (Watched.start Compression.Kind.compressor t settings {}).run moves
    (∀ m ∈ moves, m.abandons = false) ∧ (w.session.shutDown w.reserves).1 = .ready (.ok ()) ∧
      packets w.sent = [{ id := 5, payload := [7] }, { id := 6, payload := [1, 2] }] ∧
      w.accepted = [2, 5, 7, 4, 0, 6, 1, 2] ∧
      packets w.framed = packets w.sent ∧
        w.accepted = (settings.codec.build Compression.Kind.compressor).frames w.framed ∧
        w.session.transport.log.getLast? = some .shutdown := by
  intro settings t moves w
  have hmoves : ∀ m ∈ moves, m.abandons = false := by decide
  have hok : (w.session.shutDown w.reserves).1 = .ready (.ok ()) := by decide +kernel
  exact ⟨hmoves, hok, by decide +kernel, by decide +kernel,
    (delivers_in_order Compression.Kind.compressor settings t {} moves).2.2.2.2.2 hmoves hok⟩

end Watched

end PacketWire
