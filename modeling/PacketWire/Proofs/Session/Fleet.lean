import Mathlib.Data.List.Basic
import PacketWire.Proofs.Session.Moves

/-!
# Sessions that are counted

A `Fleet` is any number of sessions that share one pool and one set of counters. Whatever happens to
them in whatever order, the count of active sessions goes up where one is started and down where one
is let go for the first time, and stays everywhere else (`Fleet.connections_balance`). `letsGo` says
which events let a session go: a close, a drop, and the poll of a shutdown that has nothing more to
send.
-/

namespace PacketWire

/-! ## The counters of sessions -/

/-- How many sessions were started, and how many of them are active. -/
def Reserves.census (r : Reserves) : UInt64 × UInt64 :=
  (r.metrics.connectionsTotal, r.metrics.connectionsActive)

namespace Reserves

theorem census_acquire (r : Reserves) (n : Nat) : (r.acquire n).2.census = r.census := by
  unfold acquire
  split <;> rfl

end Reserves

theorem Packet.census_ofPooled (r : Reserves) (b : Buffer) (start : Nat) :
    (ofPooled r b start).2.census = r.census := by
  unfold ofPooled
  split <;> rfl

namespace Codec

theorem census_inflate (c : Codec) (packed : Bytes) (size : Nat) (r : Reserves) :
    (c.inflate packed size r).2.census = r.census := by
  have hacquire := r.census_acquire size
  unfold inflate
  split <;> rename_i h <;> rw [h] at hacquire
  · exact hacquire
  · simp only
    split
    · split
      · exact (Packet.census_ofPooled _ _ _).trans hacquire
      · exact hacquire
    · exact hacquire
    · exact hacquire

theorem census_counted (length : Nat) (compressed : Bool) (x : Except WireError Packet × Reserves) :
    (counted length compressed x).2.census = x.2.census := by
  obtain ⟨_ | _, r⟩ := x <;> rfl

theorem census_decodeBody (c : Codec) (body : Bytes) (r : Reserves) :
    (c.decodeBody body r).2.census = r.census := by
  unfold decodeBody
  split
  · rfl
  · exact census_counted ..
  · exact (census_counted ..).trans (census_inflate ..)

theorem census_next (c : Codec) (bs : Bytes) (r : Reserves) :
    (c.next bs r).reserves.census = r.census := by
  unfold next
  split
  · rfl
  · rfl
  · rename_i body rest _
    have hbody := c.census_decodeBody body r
    split <;> rename_i h <;> rw [h] at hbody <;> exact hbody

theorem census_putItem (c : Codec) (out : Bytes) (r : Reserves) (x : Item) :
    (c.putItem out r x).reserves.census = r.census := by
  have hsent (length : Nat) (y : Except WireError Bool × Bytes) :
      (errorCounted (sent length r y)).reserves.census = r.census := by
    obtain ⟨_ | _, out⟩ := y <;> rfl
  cases x with
  | packet p => exact hsent ..
  | raw body => exact hsent ..

end Codec

theorem Inbox.census_poll {σ : Type} [Source σ] (cancelled : Bool) (i : Inbox) (s : σ)
    (r : Reserves) : (i.poll cancelled s r).reserves.census = r.census := by
  fun_induction Inbox.poll cancelled i s r with
  | case3 i s r hp hcan t p ht => exact i.codec.census_next i.buffer r
  | case4 i s r hp hcan t e ht => exact i.codec.census_next i.buffer r
  | case5 i s r hp hcan t ht ih => exact ih.trans (i.codec.census_next i.buffer r)
  | case10 i s r hp hcan b bs s' hr ih => exact ih
  | _ => rfl

theorem Outbox.census_stageAll (o : Outbox) (r : Reserves) (ps : List Outgoing) :
    (o.stageAll r ps).2.2.census = r.census := by
  fun_induction Outbox.stageAll o r ps with
  | case1 => rfl
  | case2 o r p ps o' r' h ih =>
    have hput := o.codec.census_putItem o.staged r (.packet p)
    simp only [stage, Prod.mk.injEq] at h
    rw [ih, ← h.2.2, hput]
  | case3 o r p ps e o' r' h =>
    have hput := o.codec.census_putItem o.staged r (.packet p)
    simp only [stage, Prod.mk.injEq] at h
    rw [← h.2.2, hput]

namespace Session

variable {τ : Type}

@[simp] theorem closed_fail (e : WireError) (s : Session τ) : (s.fail e).closed = s.closed := by
  unfold fail
  split <;> rfl

@[simp] theorem closed_ended {α : Type} (result : Except WireError α) (s : Session τ) :
    (s.ended result).closed = s.closed := by
  cases result with
  | ok _ => rfl
  | error e => exact closed_fail e s

@[simp] theorem closed_endWriter {α : Type} (result : Except WireError α) (s : Session τ) :
    (s.endWriter result).closed = s.closed :=
  closed_ended result s

@[simp] theorem closed_pollClosing (c : Outbox.Close) (s : Session τ) :
    (s.pollClosing c).closed = s.closed := by
  unfold pollClosing
  split
  · rfl
  · exact closed_endWriter ..

@[simp] theorem closed_dropOutbound (s : Session τ) : s.dropOutbound.closed = s.closed := by
  unfold dropOutbound
  split <;> rfl

theorem receive_aside (s : Session τ) (r : Reserves) :
    (s.receive r).2.1.closed = s.closed ∧ (s.receive r).2.2.census = r.census := by
  have hpoll := s.inbox.census_poll s.cancelled s.inbound r
  unfold receive
  simp only
  split <;> exact ⟨by simp, hpoll⟩

theorem pollWriter_aside (s : Session τ) (r : Reserves) :
    (s.pollWriter r).1.closed = s.closed ∧ (s.pollWriter r).2.census = r.census := by
  fun_induction pollWriter s r with
  | case6 s r hw hcan p ps hq e outbox r' hst =>
    have hstage := s.outbox.census_stageAll r (p :: ps)
    rw [hst] at hstage
    exact ⟨closed_endWriter .., hstage⟩
  | case7 s r hw hcan p ps hq outbox r' hst ih =>
    have hstage := s.outbox.census_stageAll r (p :: ps)
    rw [hst] at hstage
    exact ⟨ih.1, ih.2.trans hstage⟩
  | case11 s r f hw hcan n outbox outbound hp ih => exact ih
  | _ => exact ⟨by simp, rfl⟩

section

variable [Transport τ]

@[simp] theorem closed_releaseTransport (s : Session τ) :
    s.releaseTransport.closed = s.closed := by
  unfold releaseTransport
  split <;> rfl

@[simp] theorem closed_pollPump (s : Session τ) : s.pollPump.closed = s.closed := by
  unfold pollPump
  split
  · rfl
  · split <;> simp

@[simp] theorem closed_pollDrain (s : Session τ) : s.pollDrain.closed = s.closed := by
  unfold pollDrain
  split
  · rfl
  · split <;> simp

end

/-- One session less is active. -/
def departed (r : Reserves) : UInt64 × UInt64 := (r.census.1, r.census.2 - 1)

/-- What letting go of a session does: it is counted unless it was let go before. -/
structure LetGo (s : Session τ) (r : Reserves) (after : Session τ × Reserves) : Prop where
  closed : after.1.closed = true
  census : after.2.census = if s.closed then r.census else departed r

theorem letGo_close (s : Session τ) (r : Reserves) : LetGo s r (s.close r) := by
  unfold close
  split
  · rename_i h
    exact ⟨h, (if_pos h).symm⟩
  · rename_i h
    exact ⟨rfl, (if_neg h).symm⟩

theorem letGo_drop (s : Session τ) (r : Reserves) : LetGo s r (s.drop r) := by
  obtain ⟨hclosed, hcensus⟩ := letGo_close s r
  exact ⟨(closed_dropOutbound _).trans hclosed, hcensus⟩

/-- Whether a shutdown has nothing more to send. -/
def isSpent (s : Session τ) : Bool := s.writer.isFinished && s.drain.isFinished

/-- A shutdown lets go once, where it has nothing more to send; it is not over before. -/
theorem shutDown_cases (s : Session τ) (r : Reserves) :
    s.isSpent = false ∧ s.shutDown r = (.pending, s, r) ∨
      s.isSpent = true ∧ LetGo s r (s.shutDown r).2 := by
  unfold shutDown isSpent
  split
  · rename_i h
    refine .inr ⟨h, ?_⟩
    obtain ⟨hclosed, hcensus⟩ := letGo_close s r
    simp only
    split
    · obtain ⟨hclosed', hcensus'⟩ := letGo_drop (s.close r).1 (s.close r).2
      rw [hclosed, if_pos rfl] at hcensus'
      exact ⟨hclosed', hcensus'.trans hcensus⟩
    · exact ⟨hclosed, hcensus⟩
  · rename_i h
    exact .inl ⟨by simpa using h, rfl⟩

end Session

/-! ## Events around one session -/

namespace Move

variable {τ : Type}

/-- Whether a move lets go of the session. -/
def letsGo (s : Session (Recorded τ)) : Move τ → Bool
  | .close | .drop => true
  | .shutDown => s.isSpent
  | _ => false

/-- Whether what a move does elsewhere starts no session and lets go of none. -/
def Quiet : Move τ → Prop
  | .elsewhere _ use => ∀ r, (use r).census = r.census
  | _ => True

end Move

namespace Watched

variable {τ : Type} [Transport τ]

theorem census_step (w : Watched τ) {m : Move τ} (hm : m.Quiet) :
    (w.step m).session.closed = (w.session.closed || m.letsGo w.session) ∧
      (w.step m).reserves.census =
        if m.letsGo w.session && !w.session.closed then Session.departed w.reserves
        else w.reserves.census := by
  have hletGo {after : Session (Recorded τ) × Reserves}
      (h : Session.LetGo w.session w.reserves after) :
      after.1.closed = (w.session.closed || true) ∧ after.2.census =
        if true && !w.session.closed then Session.departed w.reserves else w.reserves.census := by
    refine ⟨by simp [h.closed], h.census.trans ?_⟩
    cases w.session.closed <;> rfl
  have haside {s : Session (Recorded τ)} {r : Reserves} (hs : s.closed = w.session.closed)
      (hr : r.census = w.reserves.census) :
      s.closed = (w.session.closed || false) ∧ r.census =
        if false && !w.session.closed then Session.departed w.reserves else w.reserves.census := by
    exact ⟨by simp [hs], hr⟩
  cases m with
  | close => exact hletGo (Session.letGo_close ..)
  | drop => exact hletGo (Session.letGo_drop ..)
  | shutDown =>
    rcases Session.shutDown_cases w.session w.reserves with ⟨hspent, heq⟩ | ⟨hspent, h⟩
    · simp only [step, heq, Move.letsGo, hspent]
      exact haside rfl rfl
    · simp only [Move.letsGo, hspent]
      exact hletGo h
  | send who waited p =>
    simp only [step]
    split
    · rcases w.send_cases who waited p with heq | ⟨-, heq⟩ <;> rw [heq] <;> exact haside rfl rfl
    · exact haside rfl rfl
  | clone who =>
    simp only [step, clone_eq]
    split <;> exact haside rfl rfl
  | leave =>
    simp only [step]
    split <;> exact haside rfl rfl
  | stopSending => exact haside (Session.closed_dropOutbound _) rfl
  | switchReader t => exact haside rfl rfl
  | switchWriter t => exact haside rfl rfl
  | switch t => exact haside rfl rfl
  | receive =>
    obtain ⟨hclosed, hcensus⟩ := w.session.receive_aside w.reserves
    exact haside hclosed hcensus
  | pump => exact haside (Session.closed_pollPump _) rfl
  | writer =>
    obtain ⟨hclosed, hcensus⟩ := w.session.pollWriter_aside w.reserves
    exact haside hclosed hcensus
  | drain => exact haside (Session.closed_pollDrain _) rfl
  | elsewhere act use => exact haside rfl (hm _)

end Watched

/-! ## Fleets -/

/-- Sessions that share one pool and one set of counters. -/
structure Fleet (τ : Type) where
  members : List (Watched τ) := []
  reserves : Reserves

namespace Fleet

inductive Event (τ : Type) where
  | spawn (formats : Compression.Formats) (t : τ) (settings : Settings)
  | move (i : Nat) (m : Move τ)

namespace Event

variable {τ : Type}

def spawns : Event τ → Bool
  | .spawn .. => true
  | .move .. => false

def concerns (i : Nat) : Event τ → Bool
  | .spawn .. => false
  | .move j _ => j = i

def Quiet : Event τ → Prop
  | .spawn .. => True
  | .move _ m => m.Quiet

end Event

variable {τ : Type} [Transport τ]

def step (f : Fleet τ) : Event τ → Fleet τ
  | .spawn formats t settings =>
    let w := Watched.start formats t settings f.reserves
    { members := f.members ++ [w], reserves := w.reserves }
  | .move i m =>
    match f.members[i]? with
    | none => f
    | some w =>
      let w := { w with reserves := f.reserves }.step m
      { members := f.members.set i w, reserves := w.reserves }

def run (events : List (Event τ)) (f : Fleet τ) : Fleet τ := events.foldl step f

/-- Every event, with the fleet before it. -/
def history : List (Event τ) → Fleet τ → List (Fleet τ × Event τ)
  | [], _ => []
  | e :: events, f => (f, e) :: history events (f.step e)

omit [Transport τ] in
def letsGo (i : Nat) : Fleet τ × Event τ → Bool
  | (_, .spawn ..) => false
  | (f, .move j m) => j = i && f.members[i]?.any fun w => m.letsGo w.session

def lowers (x : Fleet τ × Event τ) : Bool :=
  (x.1.step x.2).reserves.metrics.connectionsActive =
    x.1.reserves.metrics.connectionsActive - 1

omit [Transport τ] in
def isGone (f : Fleet τ) (i : Nat) : Bool := f.members[i]?.any (·.session.closed)

omit [Transport τ] in
/-- Whether an event lets its session go for the first time. -/
def parts (f : Fleet τ) : Event τ → Bool
  | .spawn .. => false
  | .move i m => letsGo i (f, .move i m) && !f.isGone i

omit [Transport τ] in
/-- How many sessions have not been let go. -/
def active (f : Fleet τ) : Nat := f.members.countP fun w => !w.session.closed

variable {f : Fleet τ} {e : Event τ} {i : Nat}

theorem step_of_member {w : Watched τ} (hw : f.members[i]? = some w) (m : Move τ) :
    f.step (.move i m) =
      { members := f.members.set i ({ w with reserves := f.reserves }.step m),
        reserves := ({ w with reserves := f.reserves }.step m).reserves } := by
  simp only [step, hw]

/-- Whoever is let go stays gone, and nobody goes without being let go. -/
theorem isGone_step (he : e.Quiet) (i : Nat) :
    (f.step e).isGone i = (f.isGone i || letsGo i (f, e)) := by
  cases e with
  | spawn formats t settings =>
    simp only [step, isGone, letsGo, Bool.or_false]
    rcases Nat.lt_or_ge i f.members.length with hi | hi
    · rw [List.getElem?_append_left hi]
    · rw [List.getElem?_append_right hi, List.getElem?_eq_none hi]
      cases hsub : i - f.members.length with
      | zero => rfl
      | succ n => rfl
  | move j m =>
    cases hw : f.members[j]? with
    | none =>
      have : letsGo i (f, .move j m) = false := by
        simp only [letsGo, Bool.and_eq_false_imp, decide_eq_true_eq]
        rintro rfl
        rw [hw]
        rfl
      rw [this, Bool.or_false]
      simp only [step, hw]
    | some w =>
      have hstep := ({ w with reserves := f.reserves } : Watched τ).census_step (m := m) he
      rw [step_of_member hw]
      simp only [isGone, letsGo]
      by_cases hij : j = i
      · subst hij
        have hj : j < f.members.length := (List.getElem?_eq_some_iff.mp hw).1
        rw [List.getElem?_set_self hj, hw]
        simpa using hstep.1
      · rw [List.getElem?_set_ne hij]
        simp [hij]

/-- The counters of sessions move where a session is started, and where one is let go for the first
time. -/
theorem census_step (he : e.Quiet) :
    (f.step e).reserves.census =
      if e.spawns then (f.reserves.census.1 + 1, f.reserves.census.2 + 1)
      else if f.parts e then Session.departed f.reserves
      else f.reserves.census := by
  cases e with
  | spawn formats t settings => rfl
  | move i m =>
    cases hw : f.members[i]? with
    | none => simp [step, parts, isGone, letsGo, Event.spawns, hw]
    | some w =>
      have hstep := ({ w with reserves := f.reserves } : Watched τ).census_step (m := m) he
      rw [step_of_member hw]
      simpa [parts, isGone, letsGo, Event.spawns, hw] using hstep.2

theorem length_step (f : Fleet τ) (e : Event τ) :
    (f.step e).members.length = f.members.length + e.spawns.toNat := by
  cases e with
  | spawn formats t settings => simp [step, Event.spawns]
  | move i m =>
    simp only [step, Event.spawns]
    split <;> simp

/-- One session more is active where one starts, one less where one is let go for the first time. -/
theorem active_step (he : e.Quiet) :
    (f.step e).active + (f.parts e).toNat = f.active + e.spawns.toNat := by
  cases e with
  | spawn formats t settings =>
    simp only [step, active, List.countP_append, Event.spawns]
    rfl
  | move i m =>
    cases hw : f.members[i]? with
    | none => simp [step, parts, letsGo, hw, Event.spawns]
    | some w =>
      obtain ⟨hi, hget⟩ := List.getElem?_eq_some_iff.mp hw
      have hstep := ({ w with reserves := f.reserves } : Watched τ).census_step (m := m) he
      have hpos : w.session.closed = false → 0 < f.active := fun hopen =>
        List.countP_pos_iff.mpr ⟨w, hget ▸ List.getElem_mem hi, by simp [hopen]⟩
      rw [step_of_member hw]
      simp only [active] at hpos ⊢
      rw [List.countP_set hi, hget, hstep.1]
      simp only [parts, letsGo, isGone, hw, Event.spawns, Option.any_some]
      cases hclosed : w.session.closed with
      | true => simp
      | false =>
        have := hpos hclosed
        cases m.letsGo w.session <;> simp <;> omega

/-- The count of active sessions goes down exactly where one is let go for the first time. -/
theorem lowers_iff (he : e.Quiet) (i : Nat) :
    (e.concerns i && lowers (f, e)) = (letsGo i (f, e) && !f.isGone i) := by
  have hcensus := congrArg Prod.snd (census_step (f := f) he)
  cases e with
  | spawn formats t settings => simp [Event.concerns, letsGo]
  | move j m =>
    by_cases hij : j = i
    · subst hij
      simp only [lowers, Event.concerns, decide_true, Bool.true_and]
      rw [show (f.step (.move j m)).reserves.metrics.connectionsActive = _ from hcensus]
      change _ = f.parts (.move j m)
      cases f.parts (.move j m) with
      | true => simp [Event.spawns, Session.departed, Reserves.census]
      | false => simp [Event.spawns, Reserves.census, UInt64.eq_sub_iff_add_eq]
    · simp [Event.concerns, letsGo, hij]

/-! ## Runs -/

theorem isGone_of_history {events : List (Event τ)} (hquiet : ∀ e ∈ events, e.Quiet)
    {before after : List (Fleet τ × Event τ)} {x : Fleet τ × Event τ}
    (h : history events f = before ++ x :: after) (i : Nat) :
    x.2.Quiet ∧ x.1.isGone i = (f.isGone i || before.any (letsGo i)) := by
  induction events generalizing f before with
  | nil => simp [history] at h
  | cons e events ih =>
    rw [List.forall_mem_cons] at hquiet
    cases before with
    | nil =>
      rw [history, List.nil_append, List.cons.injEq] at h
      rw [← h.1]
      exact ⟨hquiet.1, by simp⟩
    | cons y before =>
      rw [history, List.cons_append, List.cons.injEq] at h
      obtain ⟨hx, hgone⟩ := ih hquiet.2 h.2
      rw [hgone, isGone_step hquiet.1, ← h.1, List.any_cons, Bool.or_assoc]
      exact ⟨hx, rfl⟩

theorem isGone_run {events : List (Event τ)} (hquiet : ∀ e ∈ events, e.Quiet) (i : Nat) :
    (run events f).isGone i = (f.isGone i || (history events f).any (letsGo i)) := by
  induction events generalizing f with
  | nil => simp [run, history]
  | cons e events ih =>
    rw [List.forall_mem_cons] at hquiet
    rw [history, List.any_cons, ← Bool.or_assoc, ← isGone_step hquiet.1]
    exact ih hquiet.2

theorem length_run (events : List (Event τ)) :
    (run events f).members.length = f.members.length + events.countP Event.spawns := by
  induction events generalizing f with
  | nil => rfl
  | cons e events ih =>
    rw [show run (e :: events) f = run events (f.step e) from rfl, ih, length_step,
      List.countP_cons]
    cases e.spawns <;> grind

theorem census_run {events : List (Event τ)} (hquiet : ∀ e ∈ events, e.Quiet)
    (base : UInt64 × UInt64) (h : f.reserves.census =
      (base.1 + .ofNat f.members.length, base.2 + .ofNat f.active)) :
    (run events f).reserves.census =
      (base.1 + .ofNat (run events f).members.length, base.2 + .ofNat (run events f).active) := by
  induction events generalizing f with
  | nil => exact h
  | cons e events ih =>
    rw [List.forall_mem_cons] at hquiet
    refine ih hquiet.2 ?_
    have hactive := active_step (f := f) hquiet.1
    rw [census_step hquiet.1, length_step]
    cases e with
    | spawn formats t settings =>
      simp only [parts, Event.spawns, Bool.toNat_false, Bool.toNat_true, Nat.add_zero] at hactive ⊢
      rw [hactive, h, UInt64.ofNat_add, UInt64.ofNat_add, UInt64.add_assoc, UInt64.add_assoc]
      rfl
    | move i m =>
      simp only [Event.spawns, Bool.toNat_false, Nat.add_zero, Bool.false_eq_true,
        if_false] at hactive ⊢
      cases hparts : f.parts (.move i m) with
      | true =>
        rw [hparts, Bool.toNat_true] at hactive
        rw [if_pos rfl, Session.departed, h, ← hactive, UInt64.ofNat_add, ← UInt64.add_assoc,
          UInt64.ofNat_one, UInt64.add_sub_cancel]
      | false =>
        rw [hparts, Bool.toNat_false, Nat.add_zero] at hactive
        rw [if_neg (by decide), h, hactive]

omit [Transport τ] in
theorem active_eq (f : Fleet τ) :
    f.active = (List.range f.members.length).countP fun i => !f.isGone i := by
  unfold active isGone
  induction f.members with
  | nil => rfl
  | cons w members ih =>
    rw [List.length_cons, List.range_succ_eq_map, List.countP_cons, List.countP_cons,
      List.countP_map, ih]
    rfl

/-- Of the counters, one says how many sessions were started, the other how many of them were not
let go since. It is lowered exactly where a session is let go for the first time, which a shutdown
does before it is over. -/
theorem connections_balance (r : Reserves) (events : List (Event τ))
    (hquiet : ∀ e ∈ events, e.Quiet) :
    let f : Fleet τ := run events { reserves := r }
    let past := history events { reserves := r }
    let spawned := events.countP Event.spawns
    let remaining := (List.range spawned).countP fun i => !past.any (letsGo i)
    f.reserves.metrics.connectionsTotal = r.metrics.connectionsTotal + .ofNat spawned ∧
    f.reserves.metrics.connectionsActive = r.metrics.connectionsActive + .ofNat remaining ∧
    (r.metrics.connectionsActive.toNat + remaining < UInt64.size →
      f.reserves.metrics.connectionsActive.toNat =
        r.metrics.connectionsActive.toNat + remaining) ∧
    (∀ i before x after, past = before ++ x :: after →
      (x.2.concerns i && lowers x) = (letsGo i x && !before.any (letsGo i))) ∧
    ∀ (s : Session (Recorded τ)) (r : Reserves),
      (s.shutDown r).1 ≠ .pending → Move.shutDown.letsGo s = true := by
  intro f past spawned remaining
  have hgone (i : Nat) : isGone ({ reserves := r } : Fleet τ) i = false := rfl
  have hlength : f.members.length = spawned := (length_run events).trans (Nat.zero_add _)
  have hactive : f.active = remaining := by
    rw [active_eq, hlength]
    refine List.countP_congr fun i _ => ?_
    rw [isGone_run hquiet, hgone, Bool.false_or]
  have hcensus : f.reserves.census = _ :=
    census_run (f := { reserves := r }) hquiet r.census (by simp [active])
  rw [hlength, hactive] at hcensus
  have hcount : f.reserves.metrics.connectionsActive = _ := congrArg Prod.snd hcensus
  refine ⟨congrArg Prod.fst hcensus, hcount, fun hfits => ?_, fun i before x after hpast => ?_,
    fun s r hready => ?_⟩
  · have hbase : r.census.2 = r.metrics.connectionsActive := rfl
    rw [hcount, hbase, UInt64.toNat_add, UInt64.toNat_ofNat', Nat.add_mod_mod,
      Nat.mod_eq_of_lt hfits]
  · obtain ⟨hx, hbefore⟩ := isGone_of_history hquiet hpast i
    have hlowers := lowers_iff (f := x.1) hx i
    rwa [hbefore, hgone, Bool.false_or] at hlowers
  · rcases s.shutDown_cases r with ⟨-, heq⟩ | ⟨hspent, -⟩
    · exact absurd (congrArg Prod.fst heq) hready
    · exact hspent

/-- Four sessions that are closed, dropped, failing and shut down in different orders. -/
theorem connections_balance_four :
    let r : Reserves := { metrics := { connectionsTotal := 7, connectionsActive := 5 } }
    let failing : Script := { reads := [.fail (.ofKind (.other "ConnectionReset"))] }
    let spawn (t : Script) : Event Script := .spawn Compression.Kind.compressor t {}
    let events : List (Event Script) :=
      [spawn {}, spawn failing, .move 0 .close, spawn {}, .move 0 .close, .move 1 .pump,
        .move 1 .stopSending, .move 1 .writer, .move 1 .drain, .move 2 .stopSending,
        .move 2 .shutDown, .move 0 .drop, spawn failing, .move 1 .shutDown, .move 1 .drop,
        .move 2 .drop, .move 0 .writer, .move 3 .pump]
    let f := run events { reserves := r }
    (∀ e ∈ events, e.Quiet) ∧
      f.reserves.metrics.connectionsTotal = 7 + 4 ∧ f.reserves.metrics.connectionsActive = 5 + 1 ∧
      f.members.map (·.session.cancelled) = [true, true, true, true] ∧
      ((history events { reserves := r }).map lowers).count true = 3 := by
  intro r failing spawn events f
  have hquiet : ∀ e ∈ events, e.Quiet := by simp [events, spawn, Event.Quiet, Move.Quiet]
  have hspawned : events.countP Event.spawns = 4 := by decide +kernel
  have hremaining : ((List.range (events.countP Event.spawns)).countP fun i =>
      !(history events { reserves := r }).any (letsGo i)) = 1 := by decide +kernel
  have hbalance := connections_balance r events hquiet
  have htotal : f.reserves.metrics.connectionsTotal = 7 + 4 := by
    rw [hbalance.1, hspawned]
    rfl
  have hactive : f.reserves.metrics.connectionsActive = 5 + 1 := by
    rw [hbalance.2.1, hremaining]
    rfl
  exact ⟨hquiet, htotal, hactive, by decide +kernel, by decide +kernel⟩

end Fleet

end PacketWire
