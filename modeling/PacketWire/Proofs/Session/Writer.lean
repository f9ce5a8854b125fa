import PacketWire.Session.Tasks
import PacketWire.Proofs.Outbox
import PacketWire.Proofs.Session.Failure

/-!
# One poll of the writer

`encoded` are the packets that a poll of the writer takes off the queue and encodes, and
`WriterPolled` is all that the poll can do: it hands staged frames over and takes a batch at most
once, and then waits, comes to its end behind the last frame, or fails.
-/

namespace PacketWire.Session

variable {τ : Type}

namespace WriterTask

/-- The bytes that the writer has still to hand over. -/
def rest : WriterTask → Bytes
  | .flushing f => f.rest
  | .closing c => c.rest
  | .idle | .finished => []

/-- A writer that takes packets again has handed over all that it staged. -/
def Tidy : WriterTask → Outbox → Prop
  | .idle, o => o.staged = []
  | .flushing f, o => f.Tidy o
  | .closing _, _ | .finished, _ => True

def isClosing : WriterTask → Bool
  | .closing _ => true
  | _ => false

theorem isFinished_iff {t : WriterTask} : t.isFinished = true ↔ t = .finished := by
  cases t <;> simp [isFinished]

end WriterTask

/-- Whether the writer turns to the queue when it is polled. -/
def servesQueue (s : Session τ) : Bool :=
  !s.cancelled &&
    match s.writer with
    | .idle => true
    | .flushing f =>
      match (f.poll s.outbox s.outbound).1 with
      | .done (.ok _) => true
      | _ => false
    | .closing _ | .finished => false

/-- The packets that the writer encodes when it is polled: all that wait, up to the first that is
refused. -/
def encoded (s : Session τ) : List Outgoing :=
  if s.servesQueue then s.queue.items.takeWhile s.outbox.codec.accepts else []

/-- The frames that the writer stages when it is polled. -/
def newFrames (s : Session τ) : Bytes := s.encoded.flatMap s.outbox.codec.frameOf

theorem encoded_of_no_items {s : Session τ} (h : s.queue.items = []) : s.encoded = [] := by
  rw [encoded, h]
  split <;> rfl

theorem encoded_prefix (s : Session τ) : s.encoded <+: s.queue.items := by
  unfold encoded
  split
  · exact List.takeWhile_prefix _
  · exact List.nil_prefix

theorem accepts_of_encoded {s : Session τ} : ∀ p ∈ s.encoded, s.outbox.codec.accepts p = true := by
  intro p hp
  unfold encoded at hp
  split at hp
  · exact List.all_eq_true.mp List.all_takeWhile p hp
  · cases hp

/-- The session with other things staged, in the outbound pipe, before the writer and in the
queue. -/
def onward (s : Session τ) (outbox : Outbox) (outbound : Pipe) (writer : WriterTask)
    (items : List Outgoing) : Session τ :=
  { s with outbox, outbound, writer, queue := { s.queue with items } }

/-- All that polling the writer of `s` can do. -/
inductive WriterPolled (s : Session τ) : Session τ → Prop where
  | rests (ended : s.writer.isFinished = true) : WriterPolled s s
  | waits (outbox : Outbox) (outbound : Pipe) (writer : WriterTask) (items : List Outgoing)
      (live : writer.isFinished = false) (tidy : writer.Tidy outbox)
      (codec : outbox.codec = s.outbox.codec) (closed : outbound.closed = s.outbound.closed)
      (held : outbound.held ++ writer.rest = s.outbound.held ++ s.writer.rest ++ s.newFrames)
      (taken : s.queue.items = s.encoded ++ items)
      (closing : writer.isClosing = true →
        s.writer.isClosing = true ∨ items = [] ∧ s.queue.senders = 0) :
      WriterPolled s (s.onward outbox outbound writer items)
  | ends (outbox : Outbox) (outbound : Pipe)
      (codec : outbox.codec = s.outbox.codec)
      (held : outbound.held = s.outbound.held ++ s.writer.rest ++ s.newFrames)
      (closing : s.writer.isClosing = true ∨ s.queue.items = s.encoded ∧ s.queue.senders = 0) :
      WriterPolled s ({ s with outbox, outbound }.endWriter (α := Unit) (.ok ()))
  | fails (outbox : Outbox) (outbound : Pipe) (e : WireError)
      (codec : outbox.codec = s.outbox.codec)
      (held : outbound.held <+: s.outbound.held ++ s.writer.rest ++ s.newFrames)
      (cause : e = .cancelled → s.cancelled = true) :
      WriterPolled s ({ s with outbox, outbound }.endWriter (α := Unit) (.error e))

/-- The end of the writer is the same wherever it had come to. -/
theorem endWriter_onward {α : Type} (result : Except WireError α) (s : Session τ)
    (outbox outbox' : Outbox) (outbound outbound' : Pipe) (writer : WriterTask)
    (items : List Outgoing) :
    { s.onward outbox outbound writer items with
      outbox := outbox', outbound := outbound' }.endWriter result =
      { s with outbox := outbox', outbound := outbound' }.endWriter result := by
  cases result with
  | ok a => rfl
  | error e =>
    simp only [endWriter_error, fail_eq]
    rfl

/-- A poll that goes on from where the packets of `front` are staged behind what the writer held. -/
theorem WriterPolled.of_onward {s s' : Session τ} {outbox : Outbox} {outbound : Pipe}
    {writer : WriterTask} {back : List Outgoing} (front : List Outgoing)
    (h : WriterPolled (s.onward outbox outbound writer back) s')
    (live : writer.isFinished = false) (hopen : writer.isClosing = false)
    (codec : outbox.codec = s.outbox.codec) (closed : outbound.closed = s.outbound.closed)
    (items : s.queue.items = front ++ back)
    (encoded : s.encoded = front ++ (s.onward outbox outbound writer back).encoded)
    (held : outbound.held ++ writer.rest =
      s.outbound.held ++ s.writer.rest ++ front.flatMap s.outbox.codec.frameOf) :
    WriterPolled s s' := by
  have hframes : s.newFrames =
      front.flatMap s.outbox.codec.frameOf ++ (s.onward outbox outbound writer back).newFrames := by
    rw [newFrames, encoded, List.flatMap_append, newFrames, ← codec]
    rfl
  have hheld : outbound.held ++ writer.rest ++ (s.onward outbox outbound writer back).newFrames =
      s.outbound.held ++ s.writer.rest ++ s.newFrames := by
    rw [held, hframes, List.append_assoc]
  have htaken (rest : List Outgoing)
      (h : back = (s.onward outbox outbound writer back).encoded ++ rest) :
      s.queue.items = s.encoded ++ rest := by
    rw [items, encoded, List.append_assoc, ← h]
  cases h with
  | rests ended => exact absurd (live.symm.trans ended) (by simp)
  | waits outbox' outbound' writer' items' live' tidy codec' closed' held' taken closing =>
    refine .waits outbox' outbound' writer' items' live' tidy (codec'.trans codec)
      (closed'.trans closed) (held'.trans hheld) (htaken _ taken) fun hc => .inr ?_
    exact (closing hc).resolve_left (by simp [onward, hopen])
  | ends outbox' outbound' codec' held' closing =>
    obtain ⟨hall, hsenders⟩ := closing.resolve_left (by simp [onward, hopen])
    refine .ends outbox' outbound' (codec'.trans codec) (held'.trans hheld) (.inr ⟨?_, hsenders⟩)
    simpa using htaken [] (hall.trans (List.append_nil _).symm)
  | fails outbox' outbound' e codec' held' cause =>
    rw [endWriter_onward]
    exact .fails outbox' outbound' e (codec'.trans codec) (hheld ▸ held') cause

theorem pollWriter_of_finished {s : Session τ} (r : Reserves) (h : s.writer = .finished) :
    s.pollWriter r = (s, r) := by
  unfold pollWriter
  split <;> rename_i hw
  · rfl
  all_goals
    rw [h] at hw
    cases hw

theorem polled_pollClosing {s : Session τ} (c : Outbox.Close)
    (hrest : c.rest = s.writer.rest) (hnone : s.encoded = [])
    (hc : s.writer.isClosing = true ∨ s.queue.items = [] ∧ s.queue.senders = 0) :
    WriterPolled s (s.pollClosing c) := by
  have hframes : s.newFrames = [] := by rw [newFrames, hnone]; rfl
  have hhanded := Outbox.handed_close c s.outbox s.outbound
  unfold pollClosing
  split <;> rename_i hp <;> rw [hp] at hhanded
  · rename_i c' outbox outbound
    obtain ⟨codec, closed, held⟩ := hhanded
    exact .waits outbox outbound (.closing c') s.queue.items rfl trivial codec closed
      (by rw [hframes, List.append_nil, ← hrest]; exact held) (by rw [hnone]; rfl) (fun _ => hc)
  · rename_i result outbox outbound
    obtain ⟨codec, hresult⟩ := hhanded
    rw [hrest] at hresult
    cases result with
    | ok u =>
      exact .ends outbox outbound codec (by rw [hframes, List.append_nil]; exact hresult)
        (by rwa [hnone])
    | error e =>
      exact .fails outbox outbound e codec (by rw [hframes, List.append_nil]; exact hresult.1)
        (fun he => absurd he hresult.2)

theorem polled_pollWriter (s : Session τ) (r : Reserves) (h : s.writer.Tidy s.outbox) :
    WriterPolled s (s.pollWriter r).1 := by
  fun_induction pollWriter s r with
  | case1 s r hw => exact .rests (by rw [hw]; rfl)
  | case2 s r c hw =>
    exact polled_pollClosing c (by rw [hw]; rfl) (by simp [encoded, servesQueue, hw])
      (.inl (by rw [hw]; rfl))
  | case3 s r hw hcan =>
    exact .fails s.outbox s.outbound .cancelled rfl
      (by rw [List.append_assoc]; exact List.prefix_append ..) fun _ => hcan
  | case4 s r hw hcan hq hs =>
    have hstaged : s.outbox.staged = [] := by rw [hw] at h; exact h
    refine polled_pollClosing s.outbox.close ?_ (encoded_of_no_items hq) (.inr ⟨hq, hs⟩)
    rw [hw, Outbox.close, Outbox.Close.rest, Outbox.rest_flush, hstaged]
    rfl
  | case5 s r hw hcan hq hs =>
    have hnone := encoded_of_no_items hq
    exact .waits s.outbox s.outbound s.writer s.queue.items (by rw [hw]; rfl) h rfl rfl
      (by rw [newFrames, hnone]; exact (List.append_nil _).symm) (by rw [hnone]; rfl)
      (by rw [hw]; simp [WriterTask.isClosing])
  | case6 s r hw hcan p ps hq e outbox r' hst =>
    obtain ⟨rfl, -, hne⟩ := s.outbox.stageAll_eq r (p :: ps) hst
    refine .fails _ s.outbound e rfl ?_ fun he => absurd (he ▸ rfl) hne
    rw [List.append_assoc]
    exact List.prefix_append ..
  | case7 s r hw hcan p ps hq outbox r' hst ih =>
    obtain ⟨rfl, hall, -⟩ := s.outbox.stageAll_eq r (p :: ps) hst
    have hstaged : s.outbox.staged = [] := by rw [hw] at h; exact h
    have hserves : s.servesQueue = true := by simp [servesQueue, hw, hcan]
    have hencoded : s.encoded = p :: ps := by
      rw [encoded, if_pos hserves, hq, hall rfl]
    refine .of_onward (p :: ps) (ih (Outbox.tidy_flush _)) rfl rfl rfl rfl
      (by rw [hq, List.append_nil]) ?_ ?_
    · -- the batch was all that waited, so the same poll takes no other
      rw [hencoded, encoded_of_no_items rfl, List.append_nil]
    · rw [WriterTask.rest, Outbox.rest_flush, hstaged, hall rfl, hw]
      simp [WriterTask.rest]
  | case8 s r f hw hcan =>
    exact .fails s.outbox s.outbound .cancelled rfl
      (by rw [List.append_assoc]; exact List.prefix_append ..) fun _ => hcan
  | case9 s r f hw hcan f' outbox outbound hp =>
    obtain ⟨codec, closed, held, tidy⟩ : f.Handed s.outbox s.outbound _ :=
      hp ▸ Outbox.handed_flush f s.outbox s.outbound
    have hnone : s.encoded = [] := by simp [encoded, servesQueue, hw, hp]
    refine .waits outbox outbound (.flushing f') s.queue.items rfl (tidy (by rwa [hw] at h)) codec
      closed ?_ (by rw [hnone]; rfl) (by simp [WriterTask.isClosing])
    rw [newFrames, hnone, hw]
    exact held.trans (List.append_nil _).symm
  | case10 s r f hw hcan e outbox outbound hp =>
    obtain ⟨codec, closed, held, hne⟩ : f.Handed s.outbox s.outbound _ :=
      hp ▸ Outbox.handed_flush f s.outbox s.outbound
    refine .fails outbox outbound e codec ?_ fun he => absurd he hne
    rw [hw]
    exact held.trans (List.prefix_append ..)
  | case11 s r f hw hcan n outbox outbound hp ih =>
    obtain ⟨codec, closed, held, tidy⟩ : f.Handed s.outbox s.outbound _ :=
      hp ▸ Outbox.handed_flush f s.outbox s.outbound
    -- a flush that is done leaves the batch to the idle writer, in the same poll
    refine .of_onward [] (ih (tidy (by rwa [hw] at h))) rfl rfl codec closed rfl ?_ ?_
    · simp [encoded, servesQueue, hw, hp, hcan, onward, codec]
    · rw [hw, held]
      simp [WriterTask.rest]

end PacketWire.Session
