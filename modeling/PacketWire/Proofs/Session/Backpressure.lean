import PacketWire.Proofs.Endpoint.Tapped
import PacketWire.Proofs.Session.Inflow

/-!
# Backpressure

A `Metered` session writes down which bytes its transport hands out (`fetched`) and which of them
the stream has taken from the inbound pipe (`taken`). `inward` is what bytes pass between the two:
the pump and the pipe. Only polls of the pump and receives change it. It is `Dammed`: beyond what
was taken, there is no more than the pipe holds and one piece that the pump has not yet written.
-/

namespace PacketWire

namespace Pipe

theorem held_read (most : Nat) (p : Pipe) :
    p.held = (p.read most).1.piece.flatten ++ (p.read most).2.held := by
  unfold read
  split
  · rename_i hnone
    split <;> simp [Poll.piece]
  · simp [Poll.piece]

theorem survives_held (bs : Bytes) : Survives fun p : Pipe => bs <+: p.held where
  write {new p} h := by
    show bs <+: (Sink.write new p).2.held
    have hw := written_write new p
    generalize Sink.write new p = answer at hw
    cases hw with
    | refused => exact h
    | full => exact h
    | took n p' held =>
      rw [held]
      exact h.trans (List.prefix_append ..)
  flush h := h
  shutdown h := h

end Pipe

/-! ## The way in -/

/-- What bytes pass on their way in. -/
structure Inward where
  fetched : Bytes
  pump : Option Copy
  held : Bytes
  limit : Option Nat

/-- What was handed out has gone to the stream, is in the pipe, or is the one piece aside that the
pump has to write. -/
structure Inward.Dammed (gone : Bytes) (most chunk : Nat) (i : Inward) : Prop where
  limit : i.limit = some most
  held : i.held.length ≤ most
  aside : ∃ aside : Bytes, aside.length ≤ max chunk 1 ∧ i.fetched = gone ++ i.held ++ aside ∧
    ∀ c, i.pump = some c → c.chunk = chunk ∧ c.rest = aside

theorem Inward.Dammed.length_fetched_le {gone : Bytes} {most chunk : Nat} {i : Inward}
    (h : i.Dammed gone most chunk) :
    i.fetched.length ≤ gone.length + (most + max chunk 1) := by
  obtain ⟨-, hheld, aside, haside, hfetched, -⟩ := h
  rw [hfetched, List.length_append, List.length_append]
  omega

namespace Session

variable {τ : Type}

def inward (s : Session (Recorded (Tapped τ))) : Inward where
  fetched := s.transport.inner.given
  pump := s.pump.copy
  held := s.inbound.held
  limit := s.inbound.limit

/-- The pieces that a receive takes from the inbound pipe. -/
def takes (s : Session τ) (r : Reserves) : List Bytes :=
  (s.inbox.poll s.cancelled ({ inner := s.inbound } : Tapped Pipe) r).source.pieces

variable {s : Session (Recorded (Tapped τ))}

/-! ### What goes on elsewhere -/

theorem inward_cancel (s : Session (Recorded (Tapped τ))) : s.cancel.inward = s.inward := by
  simp [inward, cancel]

theorem inward_ended {α : Type} (result : Except WireError α)
    (s : Session (Recorded (Tapped τ))) : (s.ended result).inward = s.inward := by
  cases result with
  | ok a => rfl
  | error e =>
    show (s.fail e).inward = s.inward
    rw [fail_eq]
    simp [inward]

theorem inward_endWriter {α : Type} (result : Except WireError α)
    (s : Session (Recorded (Tapped τ))) : (s.endWriter result).inward = s.inward :=
  inward_ended result s

theorem inward_pollClosing (c : Outbox.Close) (s : Session (Recorded (Tapped τ))) :
    (s.pollClosing c).inward = s.inward := by
  unfold pollClosing
  split
  · rfl
  · exact inward_endWriter _ _

theorem inward_pollWriter (s : Session (Recorded (Tapped τ))) (r : Reserves) :
    (s.pollWriter r).1.inward = s.inward := by
  fun_induction pollWriter s r with
  | case1 => rfl
  | case2 s r c => exact inward_pollClosing c s
  | case3 => exact inward_endWriter _ _
  | case4 s r => exact inward_pollClosing _ s
  | case5 => rfl
  | case6 => exact inward_endWriter _ _
  | case7 s r hw hcan p ps hq outbox r' hst ih => exact ih
  | case8 => exact inward_endWriter _ _
  | case9 => rfl
  | case10 => exact inward_endWriter _ _
  | case11 s r f hw hcan n outbox outbound hp ih => exact ih

theorem inward_dropOutbound (s : Session (Recorded (Tapped τ))) :
    s.dropOutbound.inward = s.inward := by
  unfold dropOutbound
  split <;> rfl

theorem inward_close (s : Session (Recorded (Tapped τ))) (r : Reserves) :
    (s.close r).1.inward = s.inward := by
  unfold close
  split
  · rfl
  · exact inward_cancel _

theorem inward_drop (s : Session (Recorded (Tapped τ))) (r : Reserves) :
    (s.drop r).1.inward = s.inward :=
  (inward_dropOutbound (s.close r).1).trans (inward_close s r)

theorem inward_shutDown (s : Session (Recorded (Tapped τ))) (r : Reserves) :
    (s.shutDown r).2.1.inward = s.inward := by
  unfold shutDown
  split
  · simp only
    split
    · exact (inward_drop _ _).trans (inward_close s r)
    · exact inward_close s r
  · rfl

section

variable [Transport τ]

theorem inward_releaseTransport (s : Session (Recorded (Tapped τ))) :
    s.releaseTransport.inward = s.inward := by
  unfold releaseTransport
  split <;> rfl

theorem inward_pollDrain (s : Session (Recorded (Tapped τ))) : s.pollDrain.inward = s.inward := by
  unfold pollDrain
  split
  · rfl
  · rename_i c due hd
    have hgiven : (c.poll s.cancelled s.outbound s.transport).2.2.inner.given =
        s.transport.inner.given :=
      Copy.poll_preserves (Tapped.survives _).recorded s.cancelled c s.outbound s.transport rfl
    have hkept (transport : Recorded (Tapped τ)) (outbound : Pipe) (drain : CopyTask)
        (h : transport.inner.given = s.transport.inner.given) :
        inward { s with transport, outbound, drain } = s.inward := by
      simp only [inward, h]
    split <;> rename_i hp <;> rw [hp] at hgiven
    · exact hkept _ _ _ hgiven
    · rw [inward_releaseTransport, inward_ended]
      exact hkept _ _ _ hgiven

/-! ### Polling the pump -/

variable {gone : Bytes} {most chunk : Nat}

theorem dammed_pollPump (h : s.inward.Dammed gone most chunk) :
    s.pollPump.inward.Dammed gone most chunk := by
  unfold pollPump
  split
  · exact h
  · rename_i c due hpump
    obtain ⟨hlimit, hheld, aside, haside, hfetched, hpumped⟩ := h
    obtain ⟨hchunk, rfl⟩ := hpumped c (by rw [inward, hpump]; rfl)
    have hwithin : (c.poll s.cancelled s.transport s.inbound).2.2.Within most :=
      Copy.poll_preserves (Pipe.survives_within most) _ _ _ _ ⟨hlimit, hheld⟩
    have htells : Tells fun k : Recorded (Tapped τ) => k.inner.given := Tapped.tells.recorded
    have hdraws := Copy.draws_poll htells s.cancelled hchunk haside hfetched
    split <;> rename_i hp <;> rw [hp] at hwithin hdraws
    · rename_i c' transport inbound
      obtain ⟨hchunk', hrest, hgiven⟩ := hdraws
      refine ⟨hwithin.1, hwithin.2, c'.rest, hrest, hgiven, fun d hd => ?_⟩
      cases hd
      exact ⟨hchunk', rfl⟩
    · obtain ⟨lost, hlost, hgiven⟩ := hdraws
      rw [inward_releaseTransport, inward_ended]
      exact ⟨hwithin.1, hwithin.2, lost, hlost, hgiven, fun d hd => by cases hd⟩

theorem held_pollPump (s : Session (Recorded (Tapped τ))) :
    s.inbound.held <+: s.pollPump.inbound.held := by
  unfold pollPump
  split
  · exact List.prefix_rfl
  · rename_i c due hpump
    have hheld : s.inbound.held <+: (c.poll s.cancelled s.transport s.inbound).2.2.held :=
      Copy.poll_preserves (Pipe.survives_held _) _ _ _ _ List.prefix_rfl
    split <;> rename_i hp <;> rw [hp] at hheld
    · exact hheld
    · rename_i result transport inbound
      have hsame : ({ s with transport, inbound := inbound.close, pump := .finished }.ended
          result).releaseTransport.inbound = inbound.close :=
        ((beside_ended _ _).trans (beside_releaseTransport _)).inbound
      rw [hsame]
      exact hheld

end

/-! ### Receiving -/

theorem inward_receive (s : Session (Recorded (Tapped τ))) (r : Reserves) :
    (s.receive r).2.1.inward =
      { s.inward with
        held := (s.inbox.poll s.cancelled s.inbound r).source.held,
        limit := (s.inbox.poll s.cancelled s.inbound r).source.limit } := by
  unfold receive
  simp only
  split
  · rfl
  · rfl
  · rw [fail_eq]
    simp [inward]
  · rfl

theorem inbox_receive (s : Session τ) (r : Reserves) :
    (s.receive r).2.1.inbox = (s.inbox.poll s.cancelled s.inbound r).inbox := by
  unfold receive
  simp only
  split
  · rfl
  · rfl
  · rw [fail_eq]
  · rfl

/-- The pieces that a receive takes come from the front of the pipe. -/
theorem held_receive (s : Session (Recorded (Tapped τ))) (r : Reserves) :
    s.inbound.held = (s.takes r).flatten ++ (s.receive r).2.1.inbound.held ∧
      (s.receive r).2.1.inbound.limit = s.inbound.limit := by
  have hreads (room : Nat) (t : Tapped Pipe)
      (h : s.inbound.held = t.given ++ t.inner.held ∧ t.inner.limit = s.inbound.limit) :
      s.inbound.held = (Source.read room t).2.given ++ (Source.read room t).2.inner.held ∧
        (Source.read room t).2.inner.limit = s.inbound.limit := by
    refine ⟨?_, (Pipe.limit_read room t.inner).trans h.2⟩
    have htold : (Source.read room t).2.given = t.given ++ (Source.read room t).1.piece.flatten :=
      Tapped.tells room t _ _ rfl
    rw [htold, List.append_assoc, h.1]
    exact congrArg (t.given ++ ·) (Pipe.held_read room t.inner)
  have hpoll := Inbox.poll_preserves hreads s.cancelled s.inbox { inner := s.inbound } r
    ⟨rfl, rfl⟩
  have hinner := s.inbox.poll_inner s.cancelled ({ inner := s.inbound } : Tapped Pipe) r
  have hinward := inward_receive s r
  rw [show s.inbox.poll s.cancelled s.inbound r = _ from hinner] at hinward
  have hheld : (s.receive r).2.1.inbound.held = _ := congrArg Inward.held hinward
  have hlimit : (s.receive r).2.1.inbound.limit = _ := congrArg Inward.limit hinward
  rw [hheld, hlimit]
  exact hpoll

/-- A receive takes a piece only where the buffer of the stream holds no complete frame. -/
theorem hungry_receive (h : s.inbox.Hungry) (r : Reserves) :
    (s.receive r).2.1.inbox.Hungry ∧ ∀ before piece, before ++ [piece] <+: s.takes r →
      Frame.take s.inbox.codec.maxFrame (s.inbox.buffer ++ before.flatten) = .ok none := by
  obtain ⟨hungry, new, hpieces, hnew⟩ :=
    Inbox.gathers_poll s.cancelled s.inbox ({ inner := s.inbound } : Tapped Pipe) r h
  have hinner := s.inbox.poll_inner s.cancelled ({ inner := s.inbound } : Tapped Pipe) r
  refine ⟨?_, fun before piece hbefore => hnew before piece ?_⟩
  · rw [inbox_receive, show s.inbox.poll s.cancelled s.inbound r = _ from hinner]
    exact hungry
  · rw [List.nil_append] at hpieces
    exact hpieces ▸ hbefore

theorem dammed_receive {gone : Bytes} {most chunk : Nat} (h : s.inward.Dammed gone most chunk)
    (r : Reserves) :
    (s.receive r).2.1.inward.Dammed (gone ++ (s.takes r).flatten) most chunk := by
  obtain ⟨hlimit, hheld, aside, haside, hfetched, hpump⟩ := h
  obtain ⟨hsplit, hkept⟩ := s.held_receive r
  have hlength := congrArg List.length hsplit
  rw [List.length_append] at hlength
  refine ⟨hkept.trans hlimit, ?_, aside, haside, ?_, ?_⟩
  · show (s.receive r).2.1.inbound.held.length ≤ most
    have hheld : s.inbound.held.length ≤ most := hheld
    omega
  · have hsame : (s.receive r).2.1.inward.fetched = s.inward.fetched := by rw [inward_receive]
    rw [hsame, hfetched, (show s.inward.held = _ from hsplit), List.append_assoc,
      List.append_assoc, List.append_assoc, List.append_assoc]
    rfl
  · have hsame : (s.receive r).2.1.inward.pump = s.inward.pump := by rw [inward_receive]
    rwa [hsame]

end Session

/-! ## Moves -/

/-- The same move around a transport that is tapped. -/
def Move.tapped {τ : Type} : Move τ → Move (Tapped τ)
  | .send who waited p => .send who waited p
  | .clone who => .clone who
  | .leave => .leave
  | .stopSending => .stopSending
  | .switchReader t => .switchReader t
  | .switchWriter t => .switchWriter t
  | .switch t => .switch t
  | .receive => .receive
  | .pump => .pump
  | .writer => .writer
  | .drain => .drain
  | .shutDown => .shutDown
  | .close => .close
  | .drop => .drop
  | .elsewhere act use => .elsewhere (fun t => { t with inner := act t.inner }) use

theorem Move.tapped_ne_receive {τ : Type} {m : Move τ} (h : m ≠ .receive) :
    m.tapped ≠ .receive := by
  cases m with
  | receive => exact absurd rfl h
  | _ => exact nofun

/-- Only a pump and a receive change what is on the way in. -/
theorem Watched.inward_step {τ : Type} [Transport τ] (w : Watched (Tapped τ)) {m : Move τ}
    (hreceive : m ≠ .receive) (hpump : m ≠ .pump) :
    (w.step m.tapped).session.inward = w.session.inward := by
  cases m with
  | send who waited p =>
    rw [Move.tapped, step]
    split
    · obtain heq | ⟨-, heq⟩ := w.send_cases who waited p
      · rw [heq]
      · rw [heq]
        rfl
    · rfl
  | clone who =>
    rw [Move.tapped, step, clone_eq]
    split <;> rfl
  | leave =>
    rw [Move.tapped, step]
    split <;> rfl
  | stopSending => exact Session.inward_dropOutbound _
  | receive => exact absurd rfl hreceive
  | pump => exact absurd rfl hpump
  | writer => exact Session.inward_pollWriter _ _
  | drain => exact Session.inward_pollDrain _
  | shutDown => exact Session.inward_shutDown _ _
  | close => exact Session.inward_close _ _
  | drop => exact Session.inward_drop _ _
  | _ => rfl

/-- A session in use, and what its stream has taken from the inbound pipe. -/
structure Metered (τ : Type) where
  watched : Watched (Tapped τ)
  taken : Bytes := []

namespace Metered

variable {τ : Type}

def session (w : Metered τ) : Session (Recorded (Tapped τ)) := w.watched.session

/-- What the transport has handed out. -/
def fetched (w : Metered τ) : Bytes := w.session.transport.inner.given

def takes (w : Metered τ) : List Bytes := w.session.takes w.watched.reserves

def start (formats : Compression.Formats) (t : τ) (settings : Settings) (r : Reserves) :
    Metered τ :=
  { watched := Watched.start formats { inner := t } settings r }

variable [Transport τ]

def step (w : Metered τ) (m : Move τ) : Metered τ :=
  let watched := w.watched.step m.tapped
  match m with
  | .receive => { watched, taken := w.taken ++ w.takes.flatten }
  | _ => { w with watched }

def run (moves : List (Move τ)) (w : Metered τ) : Metered τ := moves.foldl step w

theorem step_aside {w : Metered τ} {m : Move τ} (hm : m ≠ .receive) :
    w.step m = { w with watched := w.watched.step m.tapped } := by
  cases m with
  | receive => exact absurd rfl hm
  | _ => rfl

/-- What every move keeps. -/
structure Dammed (most chunk : Nat) (w : Metered τ) : Prop where
  inward : w.session.inward.Dammed w.taken most chunk
  hungry : w.session.inbox.Hungry

variable {w : Metered τ} {most chunk : Nat}

omit [Transport τ] in
theorem Dammed.start (formats : Compression.Formats) (t : τ) (settings : Settings) (r : Reserves)
    {n : Nat} (hbounded : settings.pipe.inbound = .bounded n) :
    Dammed (max n 1) settings.pipe.chunk (Metered.start formats t settings r) where
  inward := by
    have hinward : (Metered.start formats t settings r).session.inward =
        { fetched := [], pump := some { chunk := settings.pipe.chunk }, held := [],
          limit := some (max n 1) } := by
      simp only [session, Metered.start, Watched.start, Session.start, Session.inward, hbounded]
      rfl
    rw [hinward]
    refine ⟨rfl, Nat.zero_le _, [], Nat.zero_le _, rfl, fun c hc => ?_⟩
    cases hc
    exact ⟨rfl, rfl⟩
  hungry _ := Frame.take_nil _

theorem Dammed.step (h : w.Dammed most chunk) (m : Move τ) : (w.step m).Dammed most chunk := by
  by_cases hreceive : m = .receive
  · subst hreceive
    exact ⟨Session.dammed_receive h.inward _, (Session.hungry_receive h.hungry _).1⟩
  · rw [step_aside hreceive]
    refine ⟨?_, ?_⟩
    · show (w.watched.step m.tapped).session.inward.Dammed w.taken most chunk
      by_cases hpump : m = .pump
      · subst hpump
        exact Session.dammed_pollPump h.inward
      · rw [w.watched.inward_step hreceive hpump]
        exact h.inward
    · show (w.watched.step m.tapped).session.inbox.Hungry
      rw [Watched.inbox_step (Move.tapped_ne_receive hreceive)]
      exact h.hungry

theorem Dammed.run (h : w.Dammed most chunk) (moves : List (Move τ)) :
    (w.run moves).Dammed most chunk := by
  induction moves generalizing w with
  | nil => exact h
  | cons m moves ih => exact ih (h.step m)

theorem taken_run {moves : List (Move τ)} (hmoves : ∀ m ∈ moves, m ≠ .receive) :
    (w.run moves).taken = w.taken := by
  induction moves generalizing w with
  | nil => rfl
  | cons m moves ih =>
    have hm : (w.step m).taken = w.taken := by rw [step_aside (hmoves m (.head _))]
    exact (ih (w := w.step m) fun m hm => hmoves m (.tail _ hm)).trans hm

theorem held_step {m : Move τ} (hm : m ≠ .receive) :
    w.session.inbound.held <+: (w.step m).session.inbound.held := by
  rw [step_aside hm]
  by_cases hpump : m = .pump
  · subst hpump
    exact Session.held_pollPump _
  · have hheld := congrArg Inward.held (w.watched.inward_step hm hpump)
    exact (show (w.watched.step m.tapped).session.inbound.held = _ from hheld) ▸ List.prefix_rfl

/-- A session whose inbound pipe is bounded has never fetched more, beyond what its stream has
taken, than the pipe may hold and one chunk. Only receives take any, and only where the buffer holds
no complete frame. -/
theorem fetches_within (formats : Compression.Formats) (t : τ) (settings : Settings)
    (r : Reserves) (n : Nat) (hbounded : settings.pipe.inbound = .bounded n)
    (moves : List (Move τ)) :
    let w := (start formats t settings r).run moves
    let ahead := max n 1 + max settings.pipe.chunk 1
    w.fetched.length ≤ w.taken.length + ahead ∧
    w.taken ++ w.session.inbound.held <+: w.fetched ∧
    (∀ m, m ≠ .receive →
      (w.step m).taken = w.taken ∧
        w.session.inbound.held <+: (w.step m).session.inbound.held) ∧
    w.session.inbound.held = w.takes.flatten ++ (w.step .receive).session.inbound.held ∧
    (∀ before piece, before ++ [piece] <+: w.takes →
      Frame.take w.session.inbox.codec.maxFrame (w.session.inbox.buffer ++ before.flatten) =
        .ok none) ∧
    (∀ more, (∀ m ∈ more, m ≠ .receive) →
      (w.run more).fetched.length ≤ w.taken.length + ahead) := by
  intro w ahead
  have h : w.Dammed (max n 1) settings.pipe.chunk :=
    (Dammed.start formats t settings r hbounded).run moves
  refine ⟨h.inward.length_fetched_le, ?_, fun m hm => ⟨?_, held_step hm⟩,
    (w.session.held_receive w.watched.reserves).1, (Session.hungry_receive h.hungry _).2,
    fun more hmore => ?_⟩
  · obtain ⟨aside, -, hfetched, -⟩ := h.inward.aside
    exact ⟨aside, hfetched.symm⟩
  · rw [step_aside hm]
  · rw [← taken_run (w := w) hmore]
    exact (h.run more).inward.length_fetched_le

/-- A pipe of three bytes and chunks of three: after a receive, both fill up again. -/
theorem fetches_within_full :
    let settings : Settings := { pipe := { chunk := 3, inbound := .bounded 3 } }
    let t : Script := { reads := [.data (9 :: Bytes.zeros 30)], stalls := true }
    let w := (start Compression.Kind.compressor t settings {}).run [.pump, .receive, .pump]
    (w.taken.length = 3 ∧ w.fetched.length = 9 ∧ w.fetched.length ≤ w.taken.length + 6) ∧
      (w.run [.pump, .pump]).fetched.length ≤ w.taken.length + 6 ∧
      w.takes = [[0, 0, 0]] ∧
      Frame.take w.session.inbox.codec.maxFrame w.session.inbox.buffer = .ok none := by
  intro settings t w
  obtain ⟨hbound, -, -, -, hincomplete, hmore⟩ :=
    fetches_within Compression.Kind.compressor t settings {} 3 rfl [.pump, .receive, .pump]
  have htakes : w.takes = [[0, 0, 0]] := by decide +kernel
  refine ⟨⟨by decide +kernel, by decide +kernel, hbound⟩, hmore [.pump, .pump] (by simp), htakes,
    ?_⟩
  have hfirst := hincomplete [] [0, 0, 0] (htakes ▸ List.prefix_rfl)
  simpa using hfirst

end Metered

end PacketWire
