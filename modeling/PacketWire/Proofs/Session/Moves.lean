import PacketWire.Proofs.Session.Order

/-!
# What moves keep

`Stepped` is all that a move can do: it sends a packet, switches the writer, polls the writer or
the drain, or goes on `Aside` from the way out. So whatever moves come in whatever order, what goes
out stays in order (`Ordered`) and every sender is counted (`Staffed`). A move frames packets only
from the front of the queue.
-/

namespace PacketWire

namespace Session

variable {τ : Type}

/-- All that an attempt to send `p` can do. -/
inductive Attempted (s : Session τ) (p : Outgoing) :
    Poll (Except WireError Unit) × Session τ → Prop where
  | kept (answer : Poll (Except WireError Unit)) (no : answer ≠ .ready (.ok ())) :
      Attempted s p (answer, s)
  | queued (receiving : s.queue.receiving = true) :
      Attempted s p (.ready (.ok ()),
        { s with queue := { s.queue with items := s.queue.items ++ [p] } })

theorem attempted_enqueue (p : Outgoing) (s : Session τ) : Attempted s p (s.enqueue p) := by
  unfold enqueue Queue.offer
  split
  · exact .kept _ (by simp)
  · rename_i queue h
    split at h
    · cases h
    · split at h
      · cases h
      · rename_i hr hf
        cases h
        exact .queued (by simpa using hr)
  · exact .kept _ (by simp)

theorem attempted_offer (p : Outgoing) (s : Session τ) : Attempted s p (s.offer p) := by
  unfold offer
  split
  · exact .kept _ (by simp)
  · exact attempted_enqueue p s

theorem attempted_send (p : Outgoing) (s : Session τ) : Attempted s p (s.send p) := by
  unfold send
  split
  · exact attempted_offer p s
  · exact .kept _ (by simp)

end Session

namespace Watched

variable {τ : Type} [Transport τ]

omit [Transport τ] in
theorem attempted_attempt (w : Watched τ) (who : Sender) (waited : Bool) (p : Outgoing) :
    Session.Attempted w.session p (w.attempt who waited p) := by
  unfold attempt
  split
  · exact Session.attempted_enqueue p _
  · cases who with
    | owner => exact Session.attempted_send p _
    | handle => exact Session.attempted_offer p _

omit [Transport τ] in
/-- A send either changes nothing or puts the packet at the end of the queue. -/
theorem send_cases (w : Watched τ) (who : Sender) (waited : Bool) (p : Outgoing) :
    w.send who waited p = w ∨
      w.session.queue.receiving = true ∧
        w.send who waited p =
          { w with
            session := { w.session with
              queue := { w.session.queue with items := w.session.queue.items ++ [p] } },
            sent := w.sent ++ stamp w.threshold [p] } := by
  have hattempted := w.attempted_attempt who waited p
  unfold send
  generalize w.attempt who waited p = outcome at hattempted
  cases hattempted with
  | kept answer no =>
    left
    split
    · rename_i h
      cases h
      exact absurd rfl no
    · rename_i h
      cases h
      rfl
  | queued receiving => exact .inr ⟨receiving, rfl⟩

/-! ## One move -/

omit [Transport τ] in
/-- Every sender is counted. -/
def Counted (w : Watched τ) : Prop :=
  w.session.queue.senders = w.handles + w.session.hasOutbound.toNat

omit [Transport τ] in
theorem Counted.senders_pos {w : Watched τ} (h : w.Counted) {who : Sender}
    (hw : w.has who = true) : 0 < w.session.queue.senders := by
  rw [h]
  cases who with
  | owner =>
    rw [show w.session.hasOutbound = true from hw, Bool.toNat_true]
    omega
  | handle =>
    have hpos : 0 < w.handles := by simpa [has] using hw
    omega

/-- `w'` differs from `w` in nothing that is on the way out, and forgets neither an error nor a
sender. -/
structure Aside (w w' : Watched τ) : Prop where
  outflow : w'.session.outflow = w.session.outflow
  sent : w'.sent = w.sent
  framed : w'.framed = w.framed
  firstError : w'.session.firstError = none → w.session.firstError = none
  counted : w.Counted → w'.Counted
  deserted : w.Counted → w.session.queue.senders = 0 → w'.session.queue.senders = 0

namespace Aside

omit [Transport τ]

variable {w : Watched τ}

theorem refl (w : Watched τ) : w.Aside w := ⟨rfl, rfl, rfl, id, id, fun _ => id⟩

theorem threshold_eq {w' : Watched τ} (h : w.Aside w') : w'.threshold = w.threshold :=
  congrArg (fun o : Outflow => o.outbox.codec.threshold) h.outflow

theorem of_session {s : Session (Recorded τ)} (h : w.session.Aside s) (r : Reserves) :
    w.Aside { w with session := s, reserves := r } where
  outflow := h.outflow
  sent := rfl
  framed := rfl
  firstError := h.firstError
  counted := h.senders w.handles
  deserted hcounted hzero := by
    have hsum := hcounted.symm.trans hzero
    have howner : s.hasOutbound = false := by
      cases ho : s.hasOutbound with
      | false => rfl
      | true =>
        rw [h.hasOutbound ho] at hsum
        cases hsum
    have hsenders := h.senders w.handles hcounted
    rw [howner, Bool.toNat_false] at hsenders
    show s.queue.senders = 0
    omega

theorem clone {who : Sender} (hw : w.has who = true) :
    w.Aside { w with session := w.session.cloneSender, handles := w.handles + 1 } where
  outflow := rfl
  sent := rfl
  framed := rfl
  firstError := id
  counted h := by
    show w.session.queue.senders + 1 = w.handles + 1 + w.session.hasOutbound.toNat
    rw [h]
    omega
  deserted h hzero := absurd hzero (Nat.ne_of_gt (h.senders_pos hw))

theorem leave (hw : 0 < w.handles) :
    w.Aside { w with session := w.session.removeSender, handles := w.handles - 1 } where
  outflow := rfl
  sent := rfl
  framed := rfl
  firstError := id
  counted h := by
    show w.session.queue.senders - 1 = w.handles - 1 + w.session.hasOutbound.toNat
    rw [h]
    omega
  deserted _ hzero := by
    show w.session.queue.senders - 1 = 0
    rw [hzero]

end Aside

/-- All that a move can make of `w`. -/
inductive Stepped (w : Watched τ) : Move τ → Watched τ → Prop where
  | sends (who : Sender) (waited : Bool) (p : Outgoing) (has : w.has who = true)
      (receiving : w.session.queue.receiving = true) :
      Stepped w (.send who waited p)
        { w with
          session := { w.session with
            queue := { w.session.queue with items := w.session.queue.items ++ [p] } },
          sent := w.sent ++ stamp w.threshold [p] }
  | switches (m : Move τ) (t : Int32) (inbox : Inbox) (hm : m.switchesWriter = true) :
      Stepped w m
        { w with session := { w.session with inbox, outbox := w.session.outbox.switch t } }
  | writer : Stepped w .writer w.pollWriter
  | drain : Stepped w .drain { w with session := w.session.pollDrain }
  | aside (m : Move τ) (w' : Watched τ) (goes : w.Aside w')
      (calm : m.abandons = false → w.session.Calm w'.session) : Stepped w m w'

theorem stepped (w : Watched τ) (m : Move τ) : w.Stepped m (w.step m) := by
  have hrefl (m : Move τ) : w.Stepped m w := .aside m w (.refl w) fun _ => .of_cancelled_eq rfl
  cases m with
  | send who waited p =>
    rw [step]
    split
    · rename_i hw
      rcases w.send_cases who waited p with heq | ⟨hr, heq⟩ <;> rw [heq]
      · exact hrefl _
      · exact .sends who waited p hw hr
    · exact hrefl _
  | clone who =>
    rw [step, clone_eq]
    split
    · rename_i hw
      exact .aside _ _ (.clone hw) fun _ => .of_cancelled_eq rfl
    · exact hrefl _
  | leave =>
    rw [step]
    split
    · rename_i hw
      exact .aside _ _ (.leave hw) fun _ => .of_cancelled_eq rfl
    · exact hrefl _
  | stopSending =>
    exact .aside _ _ (.of_session (Session.aside_dropOutbound _) _) fun _ =>
      Session.calm_dropOutbound
  | switchReader t =>
    exact .aside _ _ ⟨rfl, rfl, rfl, id, id, fun _ => id⟩ fun _ => .of_cancelled_eq rfl
  | switchWriter t => exact .switches _ t w.session.inbox rfl
  | switch t => exact .switches _ t (w.session.inbox.switch t) rfl
  | receive =>
    exact .aside _ _ (.of_session (Session.aside_receive _ _) _) fun _ => Session.calm_receive _
  | pump =>
    exact .aside _ _ (.of_session (Session.aside_pollPump _) _) fun _ => Session.calm_pollPump
  | writer => exact .writer
  | drain => exact .drain
  | shutDown =>
    exact .aside _ _ (.of_session (Session.aside_shutDown _ _) _) fun _ => Session.calm_shutDown _
  | close => exact .aside _ _ (.of_session (Session.aside_close _ _) _) fun h => by cases h
  | drop => exact .aside _ _ (.of_session (Session.aside_drop _ _) _) fun h => by cases h
  | elsewhere act use =>
    exact .aside _ _ (.of_session (Session.aside_elsewhere _ _) _) fun _ => .of_cancelled_eq rfl

/-- What a move frames comes from the front of the queue, and is framed under the threshold in
force. -/
theorem framed_step (w : Watched τ) (m : Move τ) :
    ∃ new, (w.step m).framed = w.framed ++ stamp w.threshold new ∧
      new <+: w.session.queue.items := by
  have hstep := w.stepped m
  generalize w.step m = w' at hstep
  cases hstep with
  | writer => exact ⟨w.session.encoded, rfl, w.session.encoded_prefix⟩
  | aside _ _ goes => exact ⟨[], goes.framed.trans (List.append_nil _).symm, List.nil_prefix⟩
  | _ => exact ⟨[], (List.append_nil _).symm, List.nil_prefix⟩

theorem sent_step (w : Watched τ) (m : Move τ) :
    ∃ new, (w.step m).sent = w.sent ++ stamp w.threshold new := by
  have hstep := w.stepped m
  generalize w.step m = w' at hstep
  cases hstep with
  | sends who waited p => exact ⟨[p], rfl⟩
  | aside _ _ goes => exact ⟨[], goes.sent.trans (List.append_nil _).symm⟩
  | _ => exact ⟨[], (List.append_nil _).symm⟩

/-! ## Order -/

/-- Whether the way out is in order, for packets framed by a codec such as `base`. -/
def Ordered (base : Codec) (w : Watched τ) : Prop :=
  w.session.outflow.Ordered base w.sent w.framed

variable {base : Codec} {w : Watched τ}

omit [Transport τ] in
theorem Ordered.start (formats : Compression.Formats) (t : τ) (settings : Settings)
    (r : Reserves) : Ordered (settings.codec.build formats) (start formats t settings r) where
  codec := rfl
  tidy := rfl
  receiving := rfl
  closed hc := absurd (hc.symm.trans (Pipe.closed_ofCapacity _)) (by simp)
  closing c hc hphase := by
    cases hc
    cases hphase
  queued _ := rfl
  served := List.prefix_rfl
  encodable x hx := by cases hx
  flow := by
    refine ⟨[], ?_, fun _ _ => rfl⟩
    show [] ++ ([] ++ (Pipe.ofCapacity settings.pipe.outbound).held ++ []) ++ [] = []
    rw [Pipe.held_ofCapacity]
    rfl

omit [Transport τ] in
theorem pollWriter_of_finished (w : Watched τ) (h : w.session.writer.isFinished = true) :
    w.pollWriter = w := by
  have hw := Session.WriterTask.isFinished_iff.mp h
  have hnone : w.session.encoded = [] := by simp [Session.encoded, Session.servesQueue, hw]
  simp [pollWriter, Session.pollWriter_of_finished _ hw, hnone, stamp]

omit [Transport τ] in
theorem Ordered.pollWriter (h : w.Ordered base) : w.pollWriter.Ordered base := by
  cases hlive : w.session.writer.isFinished with
  | true => rwa [w.pollWriter_of_finished hlive]
  | false =>
    have hpolled := Session.polled_pollWriter w.session w.reserves h.tidy
    show (w.session.pollWriter w.reserves).1.outflow.Ordered base w.sent
      (w.framed ++ stamp w.threshold w.session.encoded)
    generalize (w.session.pollWriter w.reserves).1 = s' at hpolled
    cases hpolled with
    | rests ended => exact absurd (ended.symm.trans hlive) (by simp)
    | waits outbox outbound writer items live tidy codec closed held taken closing =>
      exact Outflow.Ordered.onward h hlive live tidy codec closed held taken
        Session.accepts_of_encoded
    | ends outbox outbound codec held closing =>
      rw [Session.outflow_endWriter]
      exact Outflow.Ordered.finish h hlive codec (held ▸ List.prefix_rfl) w.session.encoded_prefix
        Session.accepts_of_encoded
    | fails outbox outbound e codec held cause =>
      rw [Session.outflow_endWriter]
      exact Outflow.Ordered.finish h hlive codec held w.session.encoded_prefix
        Session.accepts_of_encoded

theorem Ordered.pollDrain (h : w.Ordered base) :
    Ordered base { w with session := w.session.pollDrain } := by
  have hpolled := Session.polled_pollDrain w.session h.closing
  generalize w.session.pollDrain = s' at hpolled
  cases hpolled with
  | rests ended => exact h
  | waits c c' due outbound transport running copied =>
    exact Outflow.Ordered.drains h rfl running copied
  | ends c result outbound transport running copied cause =>
    show Outflow.Ordered base (Session.outflow _) w.sent w.framed
    rw [(Session.aside_endCopy ..).outflow]
    exact Outflow.Ordered.drained h rfl running copied

theorem Ordered.step (h : w.Ordered base) (m : Move τ) : (w.step m).Ordered base := by
  have hstep := w.stepped m
  generalize w.step m = w' at hstep
  cases hstep with
  | sends who waited p => exact Outflow.Ordered.push h w.threshold p
  | switches m t => exact Outflow.Ordered.switch h t
  | writer => exact h.pollWriter
  | drain => exact h.pollDrain
  | aside m w' goes =>
    rw [Ordered, goes.outflow, goes.sent, goes.framed]
    exact h

theorem Ordered.run (h : w.Ordered base) (moves : List (Move τ)) :
    (w.run moves).Ordered base := by
  induction moves generalizing w with
  | nil => exact h
  | cons m moves ih => exact ih (h.step m)

/-! ## Senders -/

/-- Every sender is counted, and none is left when the writer closes. -/
structure Staffed (w : Watched τ) : Prop where
  counted : w.Counted
  closing : w.session.writer.isClosing = true →
    w.session.queue.items = [] ∧ w.session.queue.senders = 0

namespace Staffed

omit [Transport τ]

theorem start (formats : Compression.Formats) (t : τ) (settings : Settings) (r : Reserves) :
    (Watched.start formats t settings r).Staffed where
  counted := rfl
  closing h := by cases h

theorem not_closing (h : w.Staffed) {who : Sender} (hw : w.has who = true) :
    w.session.writer.isClosing = false := by
  cases hc : w.session.writer.isClosing with
  | false => rfl
  | true => exact absurd (h.closing hc).2 (Nat.ne_of_gt (h.counted.senders_pos hw))

theorem aside (h : w.Staffed) {w' : Watched τ} (goes : w.Aside w') : w'.Staffed where
  counted := goes.counted h.counted
  closing hc := by
    have hwriter : w'.session.writer = w.session.writer := congrArg Outflow.writer goes.outflow
    have hitems : w'.session.queue.items = w.session.queue.items :=
      congrArg Outflow.waiting goes.outflow
    obtain ⟨hnone, hzero⟩ := h.closing (by rw [← hwriter]; exact hc)
    exact ⟨hitems.trans hnone, goes.deserted h.counted hzero⟩

theorem endWriter (h : w.Staffed) (outbox : Outbox) (outbound : Pipe)
    (result : Except WireError Unit) (r : Reserves) (framed : List Stamped) :
    Staffed { w with
      session := { w.session with outbox, outbound }.endWriter result, reserves := r, framed } where
  counted := by
    obtain ⟨hsenders, howner⟩ :=
      Session.senders_endWriter result { w.session with outbox, outbound }
    show ({ w.session with outbox, outbound }.endWriter result).queue.senders =
      w.handles + ({ w.session with outbox, outbound }.endWriter result).hasOutbound.toNat
    rw [hsenders, howner]
    exact h.counted
  closing hc := by
    have hw : ({ w.session with outbox, outbound }.endWriter result).writer = .finished :=
      congrArg Outflow.writer (Session.outflow_endWriter result { w.session with outbox, outbound })
    rw [show Session.WriterTask.isClosing _ = _ from congrArg Session.WriterTask.isClosing hw] at hc
    cases hc

theorem pollWriter (h : w.Staffed) (htidy : w.session.writer.Tidy w.session.outbox) :
    w.pollWriter.Staffed := by
  have hpolled := Session.polled_pollWriter w.session w.reserves htidy
  show Staffed { w with
    session := (w.session.pollWriter w.reserves).1,
    reserves := (w.session.pollWriter w.reserves).2,
    framed := w.framed ++ stamp w.threshold w.session.encoded }
  generalize (w.session.pollWriter w.reserves).1 = s' at hpolled
  cases hpolled with
  | rests ended => exact ⟨h.counted, h.closing⟩
  | waits outbox outbound writer items live tidy codec closed held taken closing =>
    refine ⟨h.counted, fun hc => ?_⟩
    rcases closing hc with hbefore | ⟨hnone, hzero⟩
    · obtain ⟨hnone, hzero⟩ := h.closing hbefore
      exact ⟨(List.append_eq_nil_iff.mp (taken.symm.trans hnone)).2, hzero⟩
    · exact ⟨hnone, hzero⟩
  | ends outbox outbound codec held closing => exact h.endWriter ..
  | fails outbox outbound e codec held cause => exact h.endWriter ..

end Staffed

theorem Staffed.pollDrain (h : w.Staffed) (ho : w.Ordered base) :
    Staffed { w with session := w.session.pollDrain } := by
  have hpolled := Session.polled_pollDrain w.session ho.closing
  generalize w.session.pollDrain = s' at hpolled
  cases hpolled with
  | rests ended => exact h
  | waits c c' due outbound transport running copied => exact ⟨h.counted, h.closing⟩
  | ends c result outbound transport running copied cause =>
    have hstaffed : Staffed { w with
        session := { w.session with transport, outbound := outbound.close, drain := .finished } } :=
      ⟨h.counted, h.closing⟩
    exact hstaffed.aside (.of_session (Session.aside_endCopy ..) w.reserves)

theorem Staffed.step (h : w.Staffed) (ho : w.Ordered base) (m : Move τ) :
    (w.step m).Staffed := by
  have hstep := w.stepped m
  generalize w.step m = w' at hstep
  cases hstep with
  | sends who waited p hw =>
    exact ⟨h.counted, fun hc => absurd (hc.symm.trans (h.not_closing hw)) (by simp)⟩
  | switches m t => exact ⟨h.counted, h.closing⟩
  | writer => exact h.pollWriter ho.tidy
  | drain => exact h.pollDrain ho
  | aside m w' goes => exact h.aside goes

theorem Staffed.run (h : w.Staffed) (ho : w.Ordered base) (moves : List (Move τ)) :
    (w.run moves).Staffed := by
  induction moves generalizing w with
  | nil => exact h
  | cons m moves ih => exact ih (h.step ho m) (ho.step m)

end Watched

end PacketWire
