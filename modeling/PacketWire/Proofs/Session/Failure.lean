import PacketWire.Session.Tasks
import PacketWire.Inbox
import PacketWire.Proofs.Codec.Refusal
import PacketWire.Proofs.Endpoint.Copy

/-!
# How sessions fail

Failing cancels a session and notes the error, if it is the first one and not itself the news of
being cancelled. Decoding never gives that news, so a session that was not cancelled fails with
an error that is noted. As long as none is, what a session does is `Calm`.
-/

namespace PacketWire

theorem Inbox.poll_ne_cancelled {σ : Type} [Source σ] {cancelled : Bool} {i : Inbox} {s : σ}
    {r : Reserves} {e : WireError}
    (h : (i.poll cancelled s r).next = .ready (some (.error e))) : e ≠ .cancelled := by
  fun_induction Inbox.poll cancelled i s r with
  | case1 => cases h
  | case2 => cases h
  | case3 => cases h
  | case4 i s r hp hcan t e' he =>
    cases h
    exact WireError.ne_cancelled_of_refuses (Codec.refuses_of_next he)
  | case5 i s r hp hcan t he ih => exact ih h
  | case6 => cases h
  | case7 => cases h
  | case8 =>
    cases h
    simp
  | case9 i s r hp hcan s' hr =>
    unfold Inbox.ending at h
    split at h <;> cases h
    simp
  | case10 i s r hp hcan b bs s' hr ih => exact ih h

namespace Session

variable {τ : Type}

/-- The first error once `e` is reported. -/
def noted (e : WireError) (first : Option WireError) : Option WireError :=
  if e = .cancelled ∨ first.isSome then first else some e

theorem noted_eq_none_iff {e : WireError} {first : Option WireError} :
    noted e first = none ↔ e = .cancelled ∧ first = none := by
  unfold noted
  cases first with
  | none => by_cases he : e = .cancelled <;> simp [he]
  | some f => simp

theorem fail_eq (e : WireError) (s : Session τ) :
    s.fail e =
      { s with
        cancelled := true, firstError := noted e s.firstError, pump := s.pump.wake,
        drain := s.drain.wake } := by
  unfold fail cancel noted
  split <;> rfl

theorem endWriter_error {α : Type} (e : WireError) (s : Session τ) :
    s.endWriter (.error e : Except WireError α) =
      { s.fail e with
        writer := .finished, queue := s.queue.close, outbound := s.outbound.close } := by
  simp only [endWriter, ended, fail_eq]

/-- Where no error is noted, only a session whose writer and drain had ended is newly
cancelled. -/
def Calm (s s' : Session τ) : Prop :=
  s'.firstError = none → s'.cancelled = true →
    s.cancelled = true ∨ s.writer.isFinished = true ∧ s.drain.isFinished = true

variable {s s' : Session τ}

theorem Calm.of_cancelled_eq (h : s'.cancelled = s.cancelled) : Calm s s' :=
  fun _ hc => .inl (h ▸ hc)

/-- A task that was not told to stop does not end with the news of it. -/
theorem calm_ended {α : Type} {result : Except WireError α}
    (cause : result = .error .cancelled → s.cancelled = true) : Calm s (s.ended result) := by
  intro hnone hc
  cases result with
  | ok _ => exact .inl hc
  | error e =>
    rw [show s.ended (.error e) = s.fail e from rfl, fail_eq] at hnone
    exact .inl (cause (congrArg Except.error (noted_eq_none_iff.mp hnone).1))

theorem calm_receive (r : Reserves) : Calm s (s.receive r).2.1 := by
  unfold receive
  simp only
  split
  · exact .of_cancelled_eq rfl
  · exact .of_cancelled_eq rfl
  · rename_i e hpoll
    intro hnone _
    rw [fail_eq] at hnone
    exact absurd (noted_eq_none_iff.mp hnone).1 (Inbox.poll_ne_cancelled hpoll)
  · exact .of_cancelled_eq rfl

theorem calm_dropOutbound : Calm s s.dropOutbound := by
  unfold dropOutbound
  split <;> exact .of_cancelled_eq rfl

theorem calm_shutDown (r : Reserves) : Calm s (s.shutDown r).2.1 := by
  unfold shutDown
  split
  · rename_i hboth
    exact fun _ _ => .inr (by simpa using hboth)
  · exact .of_cancelled_eq rfl

variable [Transport τ]

theorem releaseTransport_cancelled (s : Session τ) :
    s.releaseTransport.cancelled = s.cancelled ∧
      s.releaseTransport.firstError = s.firstError := by
  unfold releaseTransport
  split <;> exact ⟨rfl, rfl⟩

theorem calm_pollPump : Calm s s.pollPump := by
  unfold pollPump
  split
  · exact .of_cancelled_eq rfl
  · rename_i c due hpump
    split
    · exact .of_cancelled_eq rfl
    · rename_i result transport inbound hp
      have cause : result = .error .cancelled → s.cancelled = true := fun hr =>
        Copy.cancelled_of_poll (by rw [hp, hr])
      intro hnone hc
      rw [(releaseTransport_cancelled _).2] at hnone
      rw [(releaseTransport_cancelled _).1] at hc
      exact calm_ended (s := { s with transport, inbound := inbound.close, pump := .finished })
        cause hnone hc

end Session

end PacketWire
