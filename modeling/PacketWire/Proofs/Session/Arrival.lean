import PacketWire.Proofs.Session.Inflow

/-!
# What arrives

A `Heard` session writes down what its receives give: the packets, and the first error that comes
while nothing has cancelled the session, each with the threshold in force at that moment. As long as
it `Hears`, decoding all the bytes at one go gives the packets that came and then those of what is
still to be received (`Tallies`). So the packets are the first of that decoding, and the error is
the one it ends with (`Faithful`). In every round of a pump and a receive something of what is to be
done gets done, so after enough of them the error has come.
-/

namespace PacketWire

theorem SameItems.trans {xs ys zs : List (Except WireError Packet)} (h : SameItems xs ys)
    (h' : SameItems ys zs) : SameItems xs zs :=
  Eq.trans h h'

theorem SameItems.append {xs ys xs' ys' : List (Except WireError Packet)} (h : SameItems xs ys)
    (h' : SameItems xs' ys') : SameItems (xs ++ xs') (ys ++ ys') := by
  rw [SameItems, List.map_append, List.map_append, h, h']

theorem SameItems.cons {xs ys : List (Except WireError Packet)} {p q : Packet}
    (h : p.trimmed = q.trimmed) (h' : SameItems xs ys) : SameItems (.ok p :: xs) (.ok q :: ys) := by
  rw [SameItems, List.map_cons, List.map_cons, h']
  exact congrArg (· :: _) (congrArg Except.ok h)

namespace FrameRead

theorem told_map {α β : Type} (f : α → β) (xs : List (Except WireError α)) :
    told (xs.map (Except.map f)) = (told xs).map (Except.map f) := by
  induction xs with
  | nil => rfl
  | cons x xs ih =>
    cases x with
    | error e => rfl
    | ok a => exact congrArg (_ :: ·) ih

theorem told_append {α : Type} (as : List α) (xs : List (Except WireError α)) :
    told (as.map .ok ++ xs) = as.map .ok ++ told xs := by
  induction as with
  | nil => rfl
  | cons a as ih => exact congrArg (_ :: ·) ih

theorem told_same {xs ys : List (Except WireError Packet)} (h : SameItems xs ys) :
    SameItems (told xs) (told ys) := by
  rw [SameItems, ← told_map, h, told_map]

end FrameRead

/-! ## Sessions that are listened to -/

structure Arrival where
  threshold : Int32
  packet : Packet

structure Verdict where
  threshold : Int32
  reserves : Reserves
  error : WireError

/-- A session in use, and what its receives gave. -/
structure Heard (τ : Type) where
  watched : Watched τ
  /-- The packets, each with the threshold in force when it came. -/
  arrivals : List Arrival := []
  /-- The first error that came while nothing had cancelled the session. -/
  verdict : Option Verdict := none

namespace Heard

variable {τ : Type}

def session (h : Heard τ) : Session (Recorded τ) := h.watched.session

def packets (h : Heard τ) : List Packet := h.arrivals.map (·.packet)

/-- Whether every packet came under the threshold of its turn. -/
def Under (h : Heard τ) (threshold : Nat → Int32) : Prop :=
  ∀ k x, h.arrivals[k]? = some x → x.threshold = threshold k

def start (formats : Compression.Formats) (t : τ) (settings : Settings) (r : Reserves) :
    Heard τ :=
  { watched := Watched.start formats t settings r }

/-- What is written down of an answer. An error tells nothing new once there was one, or the session
is cancelled. -/
def note (h : Heard τ) (answer : Poll (Except WireError Packet)) : Heard τ :=
  let threshold := h.session.inbox.codec.threshold
  match answer with
  | .pending => h
  | .ready (.ok packet) => { h with arrivals := h.arrivals ++ [{ threshold, packet }] }
  | .ready (.error error) =>
    if h.session.cancelled || h.verdict.isSome then h
    else { h with verdict := some { threshold, reserves := h.watched.reserves, error } }

variable [Transport τ]

def step (h : Heard τ) (m : Move τ) : Heard τ :=
  let watched := h.watched.step m
  match m with
  | .receive => { h.note (h.session.receive h.watched.reserves).1 with watched }
  | _ => { h with watched }

def run (moves : List (Move τ)) (h : Heard τ) : Heard τ := moves.foldl step h

def rounds {τ : Type} : Bool → List (Move τ) → Nat
  | _, [] => 0
  | _, .pump :: moves => rounds true moves
  | true, .receive :: moves => rounds false moves + 1
  | pumped, _ :: moves => rounds pumped moves

/-! ## What is written down -/

section

omit [Transport τ]

variable {h : Heard τ} {threshold : Nat → Int32}

theorem note_error (error : WireError)
    (hdeaf : h.session.cancelled = true ∨ h.verdict.isSome = true) :
    h.note (.ready (.error error)) = h :=
  if_pos (Bool.or_eq_true .. ▸ hdeaf)

theorem note_first (error : WireError) (hlive : h.session.cancelled = false)
    (hnone : h.verdict = none) :
    h.note (.ready (.error error)) =
      { h with
        verdict := some
          { threshold := h.session.inbox.codec.threshold, reserves := h.watched.reserves,
            error } } :=
  if_neg (by simp [hlive, hnone])

theorem under_append {x : Arrival} (hu : Under { h with arrivals := h.arrivals ++ [x] } threshold) :
    h.Under threshold ∧ x.threshold = threshold h.packets.length := by
  refine ⟨fun k y hy => hu k y ?_, ?_⟩
  · have hlt := (List.getElem?_eq_some_iff.mp hy).1
    exact (List.getElem?_append_left hlt).trans hy
  · rw [packets, List.length_map]
    exact hu h.arrivals.length x List.getElem?_concat_length

end

/-! ## Listening -/

section

variable (acts : (τ → τ) → Prop) (holds : τ → Bytes → Prop) (e : Ending) (c : Codec) (whole : Bytes)

omit [Transport τ]

/-- Decoding `whole` at one go gives the packets that came, and then what decoding `todo` gives. -/
def Tallies (h : Heard τ) (todo : Bytes) : Prop :=
  ∀ threshold (r : Reserves), r.Unlimited → h.Under threshold → ∃ r' : Reserves, r'.Unlimited ∧
    SameItems (c.decodeAll threshold e 0 whole r)
      (h.packets.map .ok ++ c.decodeAll threshold e h.packets.length todo r')

/-- Decoding `whole` at one go gives the packets that came first, and ends with the error that
came. -/
def Faithful (h : Heard τ) : Prop :=
  ∀ threshold (r : Reserves), r.Unlimited → h.Under threshold →
    (∃ rest, SameItems (c.decodeAll threshold e 0 whole r) (h.packets.map .ok ++ rest)) ∧
    ∀ v, h.verdict = some v → v.threshold = threshold h.packets.length →
      v.reserves.Lacks v.error ∨
        SameItems (FrameRead.told (c.decodeAll threshold e 0 whole r))
          (h.packets.map .ok ++ [.error v.error])

/-- No error came so far, nothing cancelled the session, and what the transport still delivers is
`w`. -/
structure Hears (h : Heard τ) (w : Bytes) : Prop where
  verdict : h.verdict = none
  live : h.session.cancelled = false
  reported : h.session.Reported
  codec : h.session.inbox.codec = c.switch h.session.inbox.codec.threshold
  feeding : h.session.Feeding holds e w
  tallies : h.Tallies e c whole (h.session.incoming w)

/-- No packet comes any more, and no error that is written down. -/
structure Over (h : Heard τ) : Prop where
  deaf : h.session.cancelled = true ∨ h.session.inbox.phase = .over ∧ h.verdict.isSome = true
  faithful : h.Faithful e c whole

end

variable {acts : (τ → τ) → Prop} {holds : τ → Bytes → Prop} {e : Ending} {c : Codec} {whole : Bytes}
  {h : Heard τ} {w : Bytes}

section

omit [Transport τ]

theorem Hears.faithful (hh : h.Hears holds e c whole w) : h.Faithful e c whole := by
  intro threshold r hr hu
  obtain ⟨r', -, hsame⟩ := hh.tallies threshold r hr hu
  exact ⟨⟨_, hsame⟩, fun v hv => absurd (hh.verdict.symm.trans hv) (by simp)⟩

theorem Tallies.packet {todo todo' : Bytes} {x : Arrival} (ht : h.Tallies e c whole todo)
    (hstarts : (c.switch x.threshold).Starts e todo x.packet todo') :
    Tallies e c whole { h with arrivals := h.arrivals ++ [x] } todo' := by
  intro threshold r hr hu
  obtain ⟨hbefore, hx⟩ := under_append hu
  obtain ⟨r', hr', hsame⟩ := ht threshold r hr hbefore
  obtain ⟨q', r'', hr'', htrim, hdecodes⟩ :=
    hstarts c threshold h.packets.length r' hr' (congrArg c.switch hx)
  have hpackets : packets { h with arrivals := h.arrivals ++ [x] } = h.packets ++ [x.packet] :=
    List.map_append
  refine ⟨r'', hr'', hsame.trans ?_⟩
  rw [hdecodes, hpackets, List.map_append, List.append_assoc, List.length_append]
  exact SameItems.append rfl (SameItems.cons htrim rfl)

theorem Tallies.verdict {todo : Bytes} {v : Verdict} (ht : h.Tallies e c whole todo)
    (hends : v.reserves.Lacks v.error ∨ (c.switch v.threshold).Ends e todo v.error) :
    Faithful e c whole { h with verdict := some v } := by
  intro threshold r hr hu
  obtain ⟨r', hr', hsame⟩ := ht threshold r hr hu
  refine ⟨⟨_, hsame⟩, fun v' hv hat => ?_⟩
  cases hv
  refine hends.imp id fun hends => ?_
  have htold := FrameRead.told_same hsame
  rw [FrameRead.told_append,
    hends c threshold h.packets.length r' hr' (congrArg c.switch hat)] at htold
  exact htold

/-- A receive gets ahead if it can, or comes to the end. -/
theorem Hears.receives {answer : Poll (Except WireError Packet)} {watched : Watched τ}
    (hh : h.Hears holds e c whole w) (hreported : watched.session.Reported)
    (hcodec : watched.session.inbox.codec = h.session.inbox.codec)
    (hreceives :
      Session.Receives holds e h.session w h.watched.reserves (answer, watched.session)) :
    Over e c whole { h.note answer with watched } ∨
      Hears holds e c whole { h.note answer with watched } w ∧ ∀ pauses,
        watched.session.gauge pauses w ≤ h.session.gauge pauses w ∧
          (h.session.Ready → watched.session.gauge pauses w < h.session.gauge pauses w) := by
  have hcodec : watched.session.inbox.codec = c.switch watched.session.inbox.codec.threshold :=
    hcodec.symm ▸ hh.codec
  obtain ⟨session, reserves, handles, sent, framed⟩ := watched
  cases hreceives with
  | pending s' feeding live incoming gauge =>
    refine .inr ⟨⟨hh.verdict, live, hreported, hcodec, feeding, ?_⟩, gauge⟩
    show Tallies e c whole h (session.incoming w)
    rw [incoming]
    exact hh.tallies
  | packet q s' feeding live starts gauge =>
    refine .inr ⟨⟨hh.verdict, live, hreported, hcodec, feeding, ?_⟩, fun pauses =>
      ⟨Nat.le_of_lt (gauge pauses), fun _ => gauge pauses⟩⟩
    rw [hh.codec] at starts
    exact hh.tallies.packet starts
  | error x s' ended ends =>
    rw [note_first x hh.live hh.verdict]
    refine .inl ⟨ended.imp id fun hphase => ⟨hphase, rfl⟩, ?_⟩
    rw [hh.codec] at ends
    exact hh.tallies.verdict ends

end

theorem Hears.receive (hh : h.Hears holds e c whole w) :
    (h.step .receive).Over e c whole ∨
      (h.step .receive).Hears holds e c whole w ∧ ∀ pauses,
        (h.step .receive).session.gauge pauses w ≤ h.session.gauge pauses w ∧
          (h.session.Ready →
            (h.step .receive).session.gauge pauses w < h.session.gauge pauses w) := by
  have hnone : h.session.firstError = none := by
    cases hfirst : h.session.firstError with
    | none => rfl
    | some x => exact absurd (hh.live.symm.trans (hh.reported.error x hfirst).2) (by simp)
  exact hh.receives (hh.reported.notes (h.watched.notes_step .receive))
    (Session.codec_receive h.session h.watched.reserves)
    (hh.feeding.receives hh.live hnone h.watched.reserves)

theorem step_aside {m : Move τ} (hm : m ≠ .receive) :
    h.step m = { h with watched := h.watched.step m } := by
  cases m with
  | receive => exact absurd rfl hm
  | _ => rfl

/-- Any other move leaves what is to be heard, or comes to the end. -/
theorem Hears.aside (hh : h.Hears holds e c whole w) (hd : Delivers acts holds e) {m : Move τ}
    (hm : m ≠ .receive) (hacts : ∀ act use, m = .elsewhere act use → acts act) :
    (h.step m).Over e c whole ∨ ∃ w', (h.step m).Hears holds e c whole w' ∧
      ∀ pauses, Prompt acts holds pauses →
        (h.step m).session.gauge pauses w' ≤ h.session.gauge pauses w ∧
          ((h.step m).session.gauge pauses w' < h.session.gauge pauses w ∨
            (h.session.Ready ∨ m = .pump → (h.step m).session.Ready)) := by
  rw [step_aside hm]
  have hreported := hh.reported.notes (h.watched.notes_step m)
  cases hlive : (h.watched.step m).session.cancelled with
  | true => exact .inl ⟨.inl hlive, hh.faithful⟩
  | false =>
    obtain ⟨w', honward, hgets⟩ :=
      (h.watched.onward_step hh.feeding hd hh.live hh.reported hm hacts).resolve_left
        (by simp [hlive])
    refine .inr ⟨w', ⟨hh.verdict, hlive, hreported, ?_, honward.feeding, ?_⟩, fun pauses hp =>
      ⟨honward.gauge pauses hp, hgets pauses hp⟩⟩
    · show (h.watched.step m).session.inbox.codec =
        c.switch (h.watched.step m).session.inbox.codec.threshold
      rw [Watched.inbox_step hm]
      exact Inbox.codec_switch hh.codec _
    · show Tallies e c whole h ((h.watched.step m).session.incoming w')
      rw [honward.incoming]
      exact hh.tallies

theorem Over.step (ho : h.Over e c whole) (m : Move τ) : (h.step m).Over e c whole := by
  by_cases hm : m = .receive
  · subst hm
    obtain ⟨x, hx, hdeaf⟩ : ∃ x, (h.session.receive h.watched.reserves).1 = .ready (.error x) ∧
        ((h.session.receive h.watched.reserves).2.1.cancelled = true ∨
          (h.session.receive h.watched.reserves).2.1.inbox.phase = .over ∧
            h.verdict.isSome = true) := by
      cases hcan : h.session.cancelled with
      | true =>
        exact ⟨_, (Session.refuses_of_cancelled hcan).receive _,
          .inl ((Session.notes_receive _ _).cancelled hcan)⟩
      | false =>
        have hend := ho.deaf.resolve_left (by simp [hcan])
        rw [Session.receive_of_over hcan hend.1]
        exact ⟨_, rfl, .inr hend⟩
    have hstep : h.step .receive = { h with watched := h.watched.step .receive } := by
      show { h.note (h.session.receive h.watched.reserves).1 with
        watched := h.watched.step .receive } = _
      rw [hx, note_error x (ho.deaf.imp id And.right)]
    rw [hstep]
    exact ⟨hdeaf, ho.faithful⟩
  · rw [step_aside hm]
    refine ⟨?_, ho.faithful⟩
    rcases ho.deaf with hcan | ⟨hphase, hverdict⟩
    · exact .inl ((h.watched.notes_step m).cancelled hcan)
    · refine .inr ⟨?_, hverdict⟩
      show (h.watched.step m).session.inbox.phase = .over
      rw [Watched.inbox_step hm]
      exact hphase

theorem verdict_step (hv : h.verdict.isSome = true) (m : Move τ) :
    (h.step m).verdict.isSome = true := by
  by_cases hm : m = .receive
  · subst hm
    show (h.note (h.session.receive h.watched.reserves).1).verdict.isSome = true
    generalize (h.session.receive h.watched.reserves).1 = answer
    match answer with
    | .pending => exact hv
    | .ready (.ok _) => exact hv
    | .ready (.error x) =>
      rw [note_error x (.inr hv)]
      exact hv
  · rw [step_aside hm]
    exact hv

/-! ## Runs -/

theorem faithful_run (hd : Delivers acts holds e) (moves : List (Move τ))
    (hacts : ∀ act use, .elsewhere act use ∈ moves → acts act)
    (hh : h.Over e c whole ∨ ∃ w, h.Hears holds e c whole w) :
    (h.run moves).Faithful e c whole := by
  induction moves generalizing h with
  | nil =>
    rcases hh with ho | ⟨w, hh⟩
    · exact ho.faithful
    · exact hh.faithful
  | cons m moves ih =>
    refine ih (fun act use hmem => hacts act use (.tail _ hmem)) ?_
    rcases hh with ho | ⟨w, hh⟩
    · exact .inl (ho.step m)
    · by_cases hm : m = .receive
      · subst hm
        exact hh.receive.imp id fun hnext => ⟨w, hnext.1⟩
      · rcases hh.aside hd hm fun act use heq => hacts act use (heq ▸ .head _) with
          ho | ⟨w', hnext, -⟩
        · exact .inl ho
        · exact .inr ⟨w', hnext⟩

theorem verdict_run (hv : h.verdict.isSome = true) (moves : List (Move τ)) :
    (h.run moves).verdict.isSome = true := by
  induction moves generalizing h with
  | nil => exact hv
  | cons m moves ih => exact ih (verdict_step hv m)

omit [Transport τ] in
theorem rounds_aside {m : Move τ} (hreceive : m ≠ .receive) (hpump : m ≠ .pump) (pumped : Bool)
    (moves : List (Move τ)) : rounds pumped (m :: moves) = rounds pumped moves := by
  cases m with
  | receive => exact absurd rfl hreceive
  | pump => exact absurd rfl hpump
  | _ => cases pumped <;> rfl

/-- Whether at most `n` is left to be done, less behind a pump and a receive. -/
def Within (pauses : τ → Nat) (h : Heard τ) (w : Bytes) (pumped : Bool) (n : Nat) : Prop :=
  h.session.gauge pauses w ≤ n ∧
    (pumped = true → h.session.Ready ∨ h.session.gauge pauses w < n)

/-- A move that ends a round lowers what is left to be done, and no move raises it. -/
theorem Hears.within_step {pauses : τ → Nat} {pumped : Bool} {n : Nat}
    (hh : h.Hears holds e c whole w) (hd : Delivers acts holds e) (hp : Prompt acts holds pauses)
    {m : Move τ} (hacts : ∀ act use, m = .elsewhere act use → acts act)
    (hn : h.Within pauses w pumped n) :
    (h.step m).Over e c whole ∨ ∃ w' pumped' n', (h.step m).Hears holds e c whole w' ∧
      (h.step m).Within pauses w' pumped' n' ∧
        ∀ moves, rounds pumped (m :: moves) + n' ≤ rounds pumped' moves + n := by
  obtain ⟨hgauge, hready⟩ := hn
  by_cases hreceive : m = .receive
  · subst hreceive
    refine hh.receive.imp id fun hreceived => ?_
    obtain ⟨hnext, hgets⟩ := hreceived
    obtain ⟨hle, hless⟩ := hgets pauses
    cases pumped with
    | false =>
      exact ⟨w, false, n, hnext, ⟨Nat.le_trans hle hgauge, by simp⟩, fun _ => Nat.le_refl _⟩
    | true =>
      have hlt : (h.step .receive).session.gauge pauses w < n :=
        (hready rfl).elim (fun hr => Nat.lt_of_lt_of_le (hless hr) hgauge)
          (Nat.lt_of_le_of_lt hle)
      refine ⟨w, false, n - 1, hnext, ⟨by omega, by simp⟩, fun moves => ?_⟩
      show rounds false moves + 1 + (n - 1) ≤ rounds false moves + n
      omega
  · refine (hh.aside hd hreceive hacts).imp id fun hgoes => ?_
    obtain ⟨w', hnext, hgets⟩ := hgoes
    obtain ⟨hle, hless⟩ := hgets pauses hp
    have hle' := Nat.le_trans hle hgauge
    by_cases hpump : m = .pump
    · subst hpump
      refine ⟨w', true, n, hnext, ⟨hle', fun _ => ?_⟩, fun _ => ?_⟩
      · exact hless.elim (fun hlt => .inr (by omega)) fun hr => .inl (hr (.inr rfl))
      · cases pumped <;> exact Nat.le_refl _
    · refine ⟨w', pumped, n, hnext, ⟨hle', fun hpumped => ?_⟩, fun moves => ?_⟩
      · rcases hready hpumped with hr | hlt
        · exact hless.elim (fun hlt => .inr (by omega)) fun hstays => .inl (hstays (.inl hr))
        · exact .inr (Nat.lt_of_le_of_lt hle hlt)
      · exact Nat.le_of_eq (congrArg (· + n) (rounds_aside hreceive hpump pumped moves))

/-- There are no more rounds before the verdict than there is to do, if nothing else cancels the
session. -/
theorem Hears.rounds_le {pauses : τ → Nat} (hd : Delivers acts holds e)
    (hp : Prompt acts holds pauses) {moves : List (Move τ)}
    (hacts : ∀ act use, .elsewhere act use ∈ moves → acts act)
    (hquiet : ∀ before, before <+: moves → (h.run before).session.cancelled = true →
      (h.run before).verdict.isSome = true)
    (hh : h.Hears holds e c whole w) {pumped : Bool} {n : Nat} (hn : h.Within pauses w pumped n) :
    rounds pumped moves ≤ n ∨ (h.run moves).verdict.isSome = true := by
  induction moves generalizing h w pumped n with
  | nil => exact .inl (Nat.zero_le n)
  | cons m moves ih =>
    have hlater (before : List (Move τ)) (hb : before <+: moves) :
        ((h.step m).run before).session.cancelled = true →
          ((h.step m).run before).verdict.isSome = true :=
      hquiet (m :: before) (List.cons_prefix_cons.mpr ⟨rfl, hb⟩)
    rcases hh.within_step hd hp (fun act use heq => hacts act use (heq ▸ .head _)) hn with
      ho | ⟨w', pumped', n', hnext, hn', hrounds⟩
    · refine .inr (verdict_run ?_ moves)
      exact ho.deaf.elim (hlater [] List.nil_prefix) And.right
    · refine (ih (fun act use hmem => hacts act use (.tail _ hmem)) hlater hnext hn').imp
        (fun hle => ?_) id
      have hsum := hrounds moves
      omega

/-- Only switches set the threshold that the next packet comes under. -/
theorem threshold_run (h : Heard τ) (moves : List (Move τ)) :
    (h.run moves).session.inbox.codec.threshold =
      moves.foldl Move.readsUnder h.session.inbox.codec.threshold := by
  induction moves generalizing h with
  | nil => rfl
  | cons m moves ih =>
    have hstep : (h.step m).session = (h.watched.step m).session := by cases m <;> rfl
    refine (ih (h.step m)).trans ?_
    rw [hstep, Watched.inbox_codec_step m]
    rfl

section

omit [Transport τ]

variable (formats : Compression.Formats) (t : τ) (settings : Settings) (r : Reserves)

theorem incoming_start (w : Bytes) :
    (start formats t settings r).session.incoming w = w := by
  show [] ++ (Pipe.ofCapacity settings.pipe.inbound).held ++ ([] ++ w) = w
  rw [Pipe.held_ofCapacity]
  rfl

theorem gauge_start (pauses : τ → Nat) (w : Bytes) :
    (start formats t settings r).session.gauge pauses w = pauses t + 4 * w.length + 1 := by
  show pauses t + 3 * 0 + 1 + 4 * w.length +
    2 * (Pipe.ofCapacity settings.pipe.inbound).held.length + 0 = _
  rw [Pipe.held_ofCapacity, List.length_nil]
  omega

variable {t}

theorem hears_start (ht : holds t whole) :
    (start formats t settings r).Hears holds e (settings.codec.build formats) whole whole where
  verdict := rfl
  live := rfl
  reported := Watched.reported_start formats t settings r
  codec := rfl
  feeding := by
    refine ⟨⟨nofun, fun _ => Frame.take_nil _⟩, Pipe.limit_ofCapacity _,
      fun c hc => ?_, fun hc => by cases hc⟩
    cases hc
    exact ⟨by simp, Pipe.closed_ofCapacity _, ht⟩
  tallies threshold r' hr' _ := by
    rw [incoming_start]
    exact ⟨r', hr', rfl⟩

end

/-- The packets that are received are the first of those that decoding `whole` at one go gives, each
under the threshold in force, and an error is the one that it ends with. If nothing else cancels the
session, it comes in as many rounds of a pump and a receive as there is to do. -/
theorem receives_in_order (formats : Compression.Formats) (settings : Settings) {t : τ}
    (r : Reserves) (hd : Delivers acts holds e) (ht : holds t whole) (moves : List (Move τ))
    (hacts : ∀ act use, .elsewhere act use ∈ moves → acts act) :
    let c := settings.codec.build formats
    let h := (start formats t settings r).run moves
    h.session.inbox.codec.threshold = moves.foldl Move.readsUnder c.threshold ∧
    (∀ threshold (r' : Reserves), r'.Unlimited → h.Under threshold →
      (∃ rest, SameItems (c.decodeAll threshold e 0 whole r') (h.packets.map .ok ++ rest)) ∧
      ∀ v, h.verdict = some v → v.threshold = threshold h.packets.length →
        v.reserves.Lacks v.error ∨
          SameItems (FrameRead.told (c.decodeAll threshold e 0 whole r'))
            (h.packets.map .ok ++ [.error v.error])) ∧
    ∀ pauses, Prompt acts holds pauses →
      (∀ before, before <+: moves →
        ((start formats t settings r).run before).session.cancelled = true →
        ((start formats t settings r).run before).verdict.isSome = true) →
      pauses t + 4 * whole.length + 1 < rounds false moves → h.verdict.isSome = true := by
  intro c h
  have hstart : (start formats t settings r).Hears holds e c whole whole :=
    hears_start formats settings r ht
  refine ⟨threshold_run _ moves, faithful_run hd moves hacts (.inr ⟨whole, hstart⟩), ?_⟩
  intro pauses hp hquiet hrounds
  have hgauge := Nat.le_of_eq (gauge_start formats t settings r pauses whole)
  exact (hstart.rounds_le hd hp hacts hquiet ⟨hgauge, by simp⟩).resolve_left
    (Nat.not_le_of_gt hrounds)

/-- Both frames are in the pipe before the threshold is switched, and the second comes under the new
one. -/
theorem receives_in_order_read_ahead :
    let s : Script := { reads := [.data [1, 5, 2], .pending, .data [0], .data [6, 1]] }
    let whole : Bytes := [1, 5, 2, 0, 6, 1]
    let threshold : Nat → Int32 := fun k => if k = 0 then -1 else 64
    let moves : List (Move Script) :=
      [.pump, .pump, .receive, .switch 64] ++ (List.replicate 26 [.pump, .receive]).flatten
    let c := ({} : Settings).codec.build Compression.Kind.compressor
    let begin := start Compression.Kind.compressor s {} {}
    let h := begin.run moves
    s.Plays whole ∧ h.Under threshold ∧ h.session.inbox.codec.threshold = 64 ∧
      h.packets.map (·.id) = [5, 6] ∧
      (∃ rest, SameItems (c.decodeAll threshold .closed 0 whole {}) (h.packets.map .ok ++ rest)) ∧
      h.verdict.isSome = true ∧
      SameItems (FrameRead.told (c.decodeAll threshold .closed 0 whole {}))
        (h.packets.map .ok ++ [.error .unexpectedEndOfStream]) := by
  intro s whole threshold moves c begin h
  have hplays : s.Plays whole := ⟨rfl, by decide, rfl⟩
  have hids : h.packets.map (·.id) = [5, 6] := by decide +kernel
  have hverdict : h.verdict.map (fun v => (v.threshold, v.error)) =
      some (64, .unexpectedEndOfStream) := by decide +kernel
  have hthresholds : h.arrivals.map (·.threshold) = [-1, 64] := by decide +kernel
  have hlength : h.packets.length = 2 := by
    rw [← List.length_map, hids]
    rfl
  have hunder : h.Under threshold := by
    intro k x hx
    have hk : (h.arrivals.map (·.threshold))[k]? = some x.threshold := by
      rw [List.getElem?_map, hx, Option.map_some]
    rw [hthresholds] at hk
    match k, hk with
    | 0, hk => exact (Option.some.inj hk).symm
    | 1, hk => exact (Option.some.inj hk).symm
  have hquiet (n : Nat) (hn : n < 57) :
      (begin.run (moves.take n)).session.cancelled = true →
        (begin.run (moves.take n)).verdict.isSome = true := by
    revert n
    decide +kernel
  obtain ⟨hthreshold, hfaithful, hlive⟩ :=
    receives_in_order Compression.Kind.compressor {} {} Script.plays_delivers hplays moves
      (by simp [moves])
  have hcame := hlive Script.pauses Script.plays_prompt (fun before hb => ?_) (by decide)
  · obtain ⟨hbegin, hends⟩ := hfaithful threshold {} rfl hunder
    obtain ⟨v, hv⟩ := Option.isSome_iff_exists.mp hcame
    rw [hv] at hverdict
    obtain ⟨hat, herror⟩ := Prod.mk.inj (Option.some.inj hverdict)
    refine ⟨hplays, hunder, hthreshold, hids, hbegin, hcame, ?_⟩
    rw [← herror]
    refine (hends v hv (by rw [hat, hlength]; rfl)).resolve_left fun hlacks => ?_
    obtain ⟨n, hn⟩ := hlacks.1
    cases herror.symm.trans hn
  · rw [List.prefix_iff_eq_take.mp hb]
    exact hquiet _ (Nat.lt_succ_of_le hb.length_le)

end Heard

end PacketWire
