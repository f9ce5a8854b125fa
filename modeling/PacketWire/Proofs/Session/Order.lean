import PacketWire.Proofs.Session.Outflow

/-!
# Order on the way out

`Ordered` says where everything is that was sent. The packets framed so far are the first of
those sent, and the rest waits in the queue. The bytes that the transport took, then those that
the drain carries, the outbound pipe holds and the writer has staged are the frames of the packets
framed, one behind the other; only the ends of the writer and of the drain cut this row short.
`Whole` adds that they have not.
-/

namespace PacketWire

theorem Codec.frames_append (c : Codec) (xs ys : List Stamped) :
    c.frames (xs ++ ys) = c.frames xs ++ c.frames ys :=
  List.flatMap_append

theorem Codec.frames_stamped {c base : Codec} (h : c = base.switch c.threshold)
    (ps : List Outgoing) :
    base.frames (stamp c.threshold ps) = ps.flatMap c.frameOf := by
  simp only [frames, stamp, List.flatMap_map, ← h]

namespace Outflow

structure Ordered (base : Codec) (o : Outflow) (sent framed : List Stamped) : Prop where
  codec : o.outbox.codec = base.switch o.outbox.codec.threshold
  tidy : o.writer.Tidy o.outbox
  receiving : o.receiving = !o.writer.isFinished
  closed : o.outbound.closed = true → o.writer.isFinished = true ∨ o.drain = none
  closing : ∀ c, o.drain = some c → c.phase = .closing →
    o.outbound.held = [] ∧ o.outbound.closed = true
  queued : o.writer.isFinished = false →
    packets sent = packets framed ++ o.waiting
  served : packets framed <+: packets sent
  encodable : ∀ x ∈ framed, (base.switch x.threshold).accepts x.packet = true
  /-- Nothing is lost as long as the writer and the drain go on. -/
  flow : ∃ lost, o.accepted ++ o.underway ++ lost = base.frames framed ∧
    (o.writer.isFinished = false → o.drain.isSome = true → lost = [])

variable {base : Codec} {o : Outflow} {sent framed : List Stamped}

namespace Ordered

/-- What the transport took is a prefix of the frames. -/
theorem accepted_prefix (h : Ordered base o sent framed) : o.accepted <+: base.frames framed := by
  obtain ⟨lost, hflow, -⟩ := h.flow
  exact ⟨o.underway ++ lost, by rw [← List.append_assoc, hflow]⟩

theorem not_closing (h : Ordered base o sent framed) (live : o.writer.isFinished = false) {c : Copy}
    (hc : o.drain = some c) : c.phase ≠ .closing := by
  intro hphase
  rcases h.closed (h.closing c hc hphase).2 with hw | hd
  · exact absurd (hw.symm.trans live) (by simp)
  · rw [hc] at hd
    cases hd

/-! ## Sending and switching -/

theorem push (h : Ordered base o sent framed) (threshold : Int32) (p : Outgoing) :
    Ordered base { o with waiting := o.waiting ++ [p] } (sent ++ stamp threshold [p]) framed where
  codec := h.codec
  tidy := h.tidy
  receiving := h.receiving
  closed := h.closed
  closing := h.closing
  queued live := by rw [packets_append, packets_stamp, h.queued live, List.append_assoc]
  served := by
    rw [packets_append]
    exact h.served.trans (List.prefix_append ..)
  encodable := h.encodable
  flow := h.flow

theorem switch (h : Ordered base o sent framed) (threshold : Int32) :
    Ordered base { o with outbox := o.outbox.switch threshold } sent framed where
  codec := by
    show o.outbox.codec.switch threshold = base.switch threshold
    rw [h.codec]
    rfl
  tidy := by
    have htidy := h.tidy
    revert htidy
    cases o.writer with
    | flushing f => cases f <;> exact id
    | _ => exact id
  receiving := h.receiving
  closed := h.closed
  closing := h.closing
  queued := h.queued
  served := h.served
  encodable := h.encodable
  flow := h.flow

theorem encodable_stamp (h : Ordered base o sent framed) {new : List Outgoing}
    (hnew : ∀ p ∈ new, o.outbox.codec.accepts p = true) :
    ∀ x ∈ framed ++ stamp o.outbox.codec.threshold new,
      (base.switch x.threshold).accepts x.packet = true := by
  intro x hx
  rcases List.mem_append.mp hx with hold | hstamped
  · exact h.encodable x hold
  · obtain ⟨p, hp, rfl⟩ := List.mem_map.mp hstamped
    rw [← h.codec]
    exact hnew p hp

/-- Frames that go behind everything underway go behind the frames so far. -/
theorem flow_extend (h : Ordered base o sent framed) (live : o.writer.isFinished = false)
    (o' : Outflow) (lost : Bytes) (hlog : o'.log = o.log) (hdrain : o'.drain = o.drain)
    {new : List Outgoing}
    (held : o'.outbound.held ++ o'.writer.rest ++ lost =
      o.outbound.held ++ o.writer.rest ++ new.flatMap o.outbox.codec.frameOf) :
    ∃ lost', o'.accepted ++ o'.underway ++ lost' =
        base.frames (framed ++ stamp o.outbox.codec.threshold new) ∧
      (lost = [] → o'.drain.isSome = true → lost' = []) := by
  obtain ⟨lost', hflow, hnone⟩ := h.flow
  have haccepted : o'.accepted = o.accepted := by rw [accepted, accepted, hlog]
  rw [Codec.frames_append, Codec.frames_stamped h.codec, ← hflow, haccepted]
  cases hd : o.drain with
  | none =>
    -- without a drain the new frames are lost along with the others
    refine ⟨lost' ++ new.flatMap o.outbox.codec.frameOf, ?_, fun _ hs => ?_⟩
    · simp only [underway, hdrain, hd, List.append_assoc]
    · rw [hdrain, hd] at hs
      cases hs
  | some c =>
    rw [hnone live (by rw [hd]; rfl)]
    refine ⟨lost, ?_, fun hl _ => hl⟩
    simp only [underway, hdrain, hd, List.append_assoc, List.append_nil] at held ⊢
    rw [held]

theorem onward (h : Ordered base o sent framed) (live : o.writer.isFinished = false)
    {outbox : Outbox} {outbound : Pipe} {writer : Session.WriterTask}
    {new items : List Outgoing} (live' : writer.isFinished = false) (tidy : writer.Tidy outbox)
    (codec : outbox.codec = o.outbox.codec) (closed : outbound.closed = o.outbound.closed)
    (held : outbound.held ++ writer.rest =
      o.outbound.held ++ o.writer.rest ++ new.flatMap o.outbox.codec.frameOf)
    (taken : o.waiting = new ++ items) (hnew : ∀ p ∈ new, o.outbox.codec.accepts p = true) :
    Ordered base { o with outbox, outbound, writer, waiting := items } sent
      (framed ++ stamp o.outbox.codec.threshold new) := by
  have hqueued : packets sent = packets framed ++ new ++ items := by
    rw [h.queued live, taken, List.append_assoc]
  have hpackets : packets (framed ++ stamp o.outbox.codec.threshold new) =
      packets framed ++ new := by
    rw [packets_append, packets_stamp]
  exact {
    codec := by rw [codec]; exact h.codec
    tidy := tidy
    receiving := by rw [h.receiving, live, live']
    closed := fun hc => .inr ((h.closed (closed ▸ hc)).resolve_left (by simp [live]))
    closing := fun c hc hphase => absurd hphase (h.not_closing live hc)
    queued := fun _ => by rw [hpackets, hqueued]
    served := by rw [hpackets, hqueued]; exact List.prefix_append ..
    encodable := h.encodable_stamp hnew
    flow := by
      obtain ⟨lost, hflow, hnone⟩ := h.flow_extend live
        { o with outbox, outbound, writer, waiting := items } [] rfl rfl
        (by rw [List.append_nil]; exact held)
      exact ⟨lost, hflow, fun _ hs => hnone rfl hs⟩ }

theorem finish (h : Ordered base o sent framed) (live : o.writer.isFinished = false)
    {outbox : Outbox} {outbound : Pipe} {new : List Outgoing}
    (codec : outbox.codec = o.outbox.codec)
    (held : outbound.held <+:
      o.outbound.held ++ o.writer.rest ++ new.flatMap o.outbox.codec.frameOf)
    (taken : new <+: o.waiting) (hnew : ∀ p ∈ new, o.outbox.codec.accepts p = true) :
    Ordered base
      { o with
        outbox, outbound := outbound.close, writer := .finished, waiting := [], receiving := false }
      sent
      (framed ++ stamp o.outbox.codec.threshold new) := by
  obtain ⟨left, htaken⟩ := taken
  obtain ⟨lost, hlost⟩ := held
  exact {
    codec := by rw [codec]; exact h.codec
    tidy := trivial
    receiving := rfl
    closed := fun _ => .inl rfl
    closing := fun c hc hphase => absurd hphase (h.not_closing live hc)
    queued := fun hl => by cases hl
    served := by
      rw [h.queued live, ← htaken, ← List.append_assoc]
      exact ⟨left, by rw [packets_append, packets_stamp]⟩
    encodable := h.encodable_stamp hnew
    flow := by
      obtain ⟨lost', hflow, -⟩ := h.flow_extend live
        { o with
          outbox, outbound := outbound.close, writer := .finished, waiting := [],
          receiving := false } lost rfl rfl
        (by rw [show (Session.WriterTask.finished).rest = [] from rfl, List.append_nil]
            exact hlost)
      exact ⟨lost', hflow, fun hl => by cases hl⟩ }

variable {τ : Type}

/-- What is underway besides what the drain carries and the pipe holds. -/
theorem underway_of_running {c : Copy} (running : o.drain = some c) :
    o.underway = c.rest ++ o.outbound.held ++ o.writer.rest := by
  rw [underway, running]

theorem drains (h : Ordered base o sent framed) {k k' : Recorded τ}
    {c c' : Copy} {outbound : Pipe} (hlog : k.log = o.log) (running : o.drain = some c)
    (copied : c.Copied o.outbound k (.waiting c', outbound, k')) :
    Ordered base { o with outbound, drain := some c', log := k'.log } sent framed := by
  obtain ⟨hbytes, hclosed, hphase⟩ := copied
  obtain ⟨lost, hflow, hnone⟩ := h.flow
  have haccepted : k.accepted = o.accepted := by rw [Recorded.accepted, hlog, accepted]
  exact {
    codec := h.codec
    tidy := h.tidy
    receiving := h.receiving
    closed := fun hc => .inl ((h.closed (hclosed ▸ hc)).resolve_right (by simp [running]))
    closing := fun c'' hc => by cases hc; exact hphase
    queued := h.queued
    served := h.served
    encodable := h.encodable
    flow := by
      refine ⟨lost, ?_, fun live _ => hnone live (by rw [running]; rfl)⟩
      show k'.accepted ++ (c'.rest ++ outbound.held ++ o.writer.rest) ++ lost = _
      rw [← List.append_assoc k'.accepted, hbytes, haccepted, ← hflow,
        underway_of_running running]
      simp only [List.append_assoc] }

theorem drained (h : Ordered base o sent framed) {k k' : Recorded τ}
    {c : Copy} {result : Except WireError Nat} {outbound : Pipe} (hlog : k.log = o.log)
    (running : o.drain = some c)
    (copied : c.Copied o.outbound k (.done result, outbound, k')) :
    Ordered base { o with outbound := outbound.close, drain := none, log := k'.log } sent
      framed := by
  have hbytes : k'.accepted <+: k.accepted ++ (c.rest ++ o.outbound.held) := by
    cases result with
    | ok _ => exact copied.1 ▸ List.prefix_rfl
    | error _ => exact copied
  obtain ⟨left, hleft⟩ := hbytes
  obtain ⟨lost, hflow, -⟩ := h.flow
  have haccepted : k.accepted = o.accepted := by rw [Recorded.accepted, hlog, accepted]
  exact {
    codec := h.codec
    tidy := h.tidy
    receiving := h.receiving
    closed := fun _ => .inr rfl
    closing := fun c hc => by cases hc
    queued := h.queued
    served := h.served
    encodable := h.encodable
    flow := by
      refine ⟨left ++ (o.writer.rest ++ lost), ?_, fun _ hs => by cases hs⟩
      show k'.accepted ++ [] ++ (left ++ (o.writer.rest ++ lost)) = _
      rw [List.append_nil, ← List.append_assoc k'.accepted, hleft, haccepted, ← hflow,
        underway_of_running running]
      simp only [List.append_assoc] }

end Ordered

/-! ## Nothing lost -/

/-- If neither the writer nor the drain has failed, the writer ends behind the last packet and the
drain behind the last frame. -/
structure Whole (base : Codec) (o : Outflow) (cancelled : Bool) (sent framed : List Stamped) :
    Prop where
  stopped : cancelled = true → o.writer.isFinished = true ∧ o.drain = none
  flow : o.writer.isFinished = true → o.accepted ++ o.underway = base.frames framed
  served : o.writer.isFinished = true → packets framed = packets sent
  drained : o.drain = none → o.writer.isFinished = true ∧ o.log.getLast? = some .shutdown

namespace Whole

variable {cancelled : Bool}

theorem push (h : Whole base o cancelled sent framed) (ho : Ordered base o sent framed)
    (hr : o.receiving = true) (threshold : Int32) (p : Outgoing) :
    Whole base { o with waiting := o.waiting ++ [p] } cancelled (sent ++ stamp threshold [p])
      framed where
  stopped := h.stopped
  flow := h.flow
  served hw := by
    have hlive := ho.receiving.symm.trans hr
    rw [show o.writer.isFinished = true from hw] at hlive
    cases hlive
  drained := h.drained

theorem switch (h : Whole base o cancelled sent framed) (threshold : Int32) :
    Whole base { o with outbox := o.outbox.switch threshold } cancelled sent framed :=
  ⟨h.stopped, h.flow, h.served, h.drained⟩

theorem drain_isSome (h : Whole base o cancelled sent framed)
    (live : o.writer.isFinished = false) : o.drain.isSome = true := by
  cases hd : o.drain with
  | some c => rfl
  | none => exact absurd ((h.drained hd).1.symm.trans live) (by simp)

theorem onward (h : Whole base o cancelled sent framed) (live : o.writer.isFinished = false)
    {outbox : Outbox} {outbound : Pipe} {writer : Session.WriterTask} {items : List Outgoing}
    {framed' : List Stamped} (live' : writer.isFinished = false) :
    Whole base { o with outbox, outbound, writer, waiting := items } cancelled sent framed' where
  stopped hc := absurd ((h.stopped hc).1.symm.trans live) (by simp)
  flow hw := absurd (hw.symm.trans live') (by simp)
  served hw := absurd (hw.symm.trans live') (by simp)
  drained hd := absurd ((h.drained hd).1.symm.trans live) (by simp)

theorem finish (h : Whole base o cancelled sent framed) (ho : Ordered base o sent framed)
    (live : o.writer.isFinished = false) {outbox : Outbox} {outbound : Pipe}
    {new : List Outgoing}
    (held : outbound.held =
      o.outbound.held ++ o.writer.rest ++ new.flatMap o.outbox.codec.frameOf)
    (taken : o.waiting = new) :
    Whole base
      { o with
        outbox, outbound := outbound.close, writer := .finished, waiting := [], receiving := false }
      cancelled sent (framed ++ stamp o.outbox.codec.threshold new) where
  stopped hc := absurd ((h.stopped hc).1.symm.trans live) (by simp)
  flow _ := by
    obtain ⟨lost, hflow, hnone⟩ := ho.flow_extend live
      { o with
        outbox, outbound := outbound.close, writer := .finished, waiting := [],
        receiving := false } [] rfl rfl
      (by rw [List.append_nil, show (Session.WriterTask.finished).rest = [] from rfl,
            List.append_nil]
          exact held)
    rw [← hflow, hnone rfl (h.drain_isSome live), List.append_nil]
  served _ := by rw [packets_append, packets_stamp, ho.queued live, taken]
  drained hd := absurd ((h.drained hd).1.symm.trans live) (by simp)

variable {τ : Type}

theorem drains (h : Whole base o cancelled sent framed) {k k' : Recorded τ} {c c' : Copy}
    {outbound : Pipe} (hlog : k.log = o.log) (running : o.drain = some c)
    (copied : c.Copied o.outbound k (.waiting c', outbound, k')) :
    Whole base { o with outbound, drain := some c', log := k'.log } cancelled sent framed where
  stopped hc := by
    have hd := (h.stopped hc).2
    rw [running] at hd
    cases hd
  flow hw := by
    have haccepted : k.accepted = o.accepted := by rw [Recorded.accepted, hlog, accepted]
    show k'.accepted ++ (c'.rest ++ outbound.held ++ o.writer.rest) = _
    rw [← List.append_assoc, copied.1, haccepted, ← h.flow hw, Ordered.underway_of_running running,
      List.append_assoc]
  served := h.served
  drained hd := by cases hd

theorem drained_ok (h : Whole base o cancelled sent framed) (ho : Ordered base o sent framed)
    {k k' : Recorded τ} {c : Copy} {total : Nat} {outbound : Pipe} (hlog : k.log = o.log)
    (running : o.drain = some c)
    (copied : c.Copied o.outbound k (.done (.ok total), outbound, k')) :
    Whole base { o with outbound := outbound.close, drain := none, log := k'.log } cancelled sent
      framed := by
  obtain ⟨hbytes, -, hclosed, hlast⟩ := copied
  have hw : o.writer.isFinished = true := (ho.closed hclosed).resolve_right (by simp [running])
  have haccepted : k.accepted = o.accepted := by rw [Recorded.accepted, hlog, accepted]
  exact {
    stopped := fun _ => ⟨hw, rfl⟩
    flow := fun _ => by
      have hrest : o.writer.rest = [] := by rw [Session.WriterTask.isFinished_iff.mp hw]; rfl
      show k'.accepted ++ [] = _
      rw [List.append_nil, hbytes, haccepted, ← h.flow hw, Ordered.underway_of_running running,
        hrest, List.append_nil]
    served := h.served
    drained := fun _ => ⟨hw, hlast⟩ }

end Whole

end Outflow

end PacketWire
