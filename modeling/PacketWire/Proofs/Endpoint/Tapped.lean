import PacketWire.Proofs.Codec.Decode
import PacketWire.Proofs.Endpoint.Intake
import PacketWire.Proofs.Readers

/-!
# What a source has handed out

`Tapped σ` is a source that behaves as the one inside and writes down every piece that a read
hands out. `Tells given` says that `given` reads off a source which bytes it has handed out. A copy
from such a source into a pipe never holds back more than one piece (`Copy.Draws`), and a stream
asks for another piece only where its buffer holds no complete frame (`Inbox.Gathers`).
-/

namespace PacketWire

structure Tapped (σ : Type) where
  inner : σ
  pieces : List Bytes := []

def Poll.piece : Poll (Except IoError Bytes) → List Bytes
  | .ready (.ok bs) => [bs]
  | _ => []

namespace Tapped

variable {σ τ : Type}

def given (t : Tapped σ) : Bytes := t.pieces.flatten

def read [Source σ] (room : Nat) (t : Tapped σ) : Poll (Except IoError Bytes) × Tapped σ :=
  let (answer, inner) := Source.read room t.inner
  (answer, { inner, pieces := t.pieces ++ answer.piece })

theorem read_eq [Source σ] {room : Nat} {t t' : Tapped σ} {a : Poll (Except IoError Bytes)}
    (h : t.read room = (a, t')) :
    Source.read room t.inner = (a, t'.inner) ∧ t'.pieces = t.pieces ++ a.piece := by
  cases h
  exact ⟨rfl, rfl⟩

instance [Source σ] : Source (Tapped σ) where
  read := read
  backlog t := Source.backlog t.inner
  length_le h := Source.length_le (read_eq h).1
  backlog_lt_of_bytes h := Source.backlog_lt_of_bytes (read_eq h).1
  backlog_lt_of_error h := Source.backlog_lt_of_error (read_eq h).1

def onInner {α : Type} (act : σ → α × σ) (t : Tapped σ) : α × Tapped σ :=
  let (answer, inner) := act t.inner
  (answer, { t with inner })

theorem onInner_eq {α : Type} {act : σ → α × σ} {t t' : Tapped σ} {a : α}
    (h : t.onInner act = (a, t')) : act t.inner = (a, t'.inner) := by
  cases h
  rfl

instance [Transport τ] : Transport (Tapped τ) :=
  { (inferInstance : Source (Tapped τ)) with
    write := fun bs => onInner (Sink.write bs)
    flush := onInner Sink.flush
    shutdown := onInner Sink.shutdown
    patience := fun t => Sink.patience t.inner
    taken_le := fun h => Sink.taken_le (onInner_eq h)
    patience_le := fun h => Sink.patience_le (onInner_eq h)
    patience_lt_of_interrupted := fun h => Sink.patience_lt_of_interrupted (onInner_eq h)
    callsBack := fun t => Transport.callsBack t.inner
    release := fun t => { t with inner := Transport.release t.inner } }

end Tapped

/-! ## Sources that can be told -/

/-- Whether `given` tells which bytes a source has handed out. -/
def Tells {σ : Type} [Source σ] (given : σ → Bytes) : Prop :=
  ∀ (room : Nat) (s s' : σ) (a : Poll (Except IoError Bytes)),
    Source.read room s = (a, s') → given s' = given s ++ a.piece.flatten

theorem Tapped.tells {σ : Type} [Source σ] : Tells (given : Tapped σ → Bytes) := by
  intro room t t' a h
  rw [given, (read_eq h).2, List.flatten_append, given]

theorem Tells.recorded {τ : Type} [Transport τ] {given : τ → Bytes} (h : Tells given) :
    Tells fun k : Recorded τ => given k.inner :=
  fun room _ _ a hr => h room _ _ a (Recorded.onInner_eq hr).1

theorem Tapped.survives {τ : Type} [Transport τ] (bs : Bytes) :
    Survives fun t : Tapped τ => t.given = bs where
  write hk := hk
  flush hk := hk
  shutdown hk := hk

namespace Pipe

/-- A pipe never holds more than it may. -/
def Within (most : Nat) (p : Pipe) : Prop := p.limit = some most ∧ p.held.length ≤ most

theorem within_write {most : Nat} {p : Pipe} (h : p.Within most) (bs : Bytes) :
    (p.write bs).2.Within most := by
  obtain ⟨hlimit, hheld⟩ := h
  unfold write
  split
  · exact ⟨hlimit, hheld⟩
  · split
    · exact ⟨hlimit, hheld⟩
    · simp only
      split
      · exact ⟨hlimit, hheld⟩
      · refine ⟨hlimit, ?_⟩
        have hroom : p.room bs.length ≤ most - p.held.length := by
          simp only [room, hlimit]
          omega
        rw [List.length_append, List.length_take]
        omega

theorem survives_within (most : Nat) : Survives (Within most) where
  write h := within_write h _
  flush h := h
  shutdown h := h

end Pipe

namespace Copy

variable {σ : Type} [Source σ] {given : σ → Bytes}

/-- What the source has handed out is what has left the pipe, what it holds, and at most a piece
that the copy holds back. -/
def Draws (given : σ → Bytes) (gone : Bytes) (chunk : Nat) :
    Progress Copy (Except WireError Nat) × σ × Pipe → Prop
  | (.waiting c, s, p) =>
    c.chunk = chunk ∧ c.rest.length ≤ max chunk 1 ∧ given s = gone ++ p.held ++ c.rest
  | (.done _, s, p) =>
    ∃ lost : Bytes, lost.length ≤ max chunk 1 ∧ given s = gone ++ p.held ++ lost

theorem draws_poll (h : Tells given) {gone : Bytes} {chunk : Nat} {c : Copy} {s : σ} {p : Pipe}
    (cancelled : Bool) (hchunk : c.chunk = chunk) (hrest : c.rest.length ≤ max chunk 1)
    (hgiven : given s = gone ++ p.held ++ c.rest) :
    Draws given gone chunk (c.poll cancelled s p) := by
  have hnothing {s : σ} {p : Pipe} (hs : given s = gone ++ p.held) :
      ∃ lost : Bytes, lost.length ≤ max chunk 1 ∧ given s = gone ++ p.held ++ lost :=
    ⟨[], Nat.zero_le _, hs.trans (List.append_nil _).symm⟩
  fun_induction poll cancelled c s p with
  | case1 c s p hc =>
    rw [rest, hc, Phase.rest, List.append_nil] at hgiven
    exact hnothing (p := p.close) hgiven
  | case2 c s p hc hcan => exact ⟨c.rest, hrest, hgiven⟩
  | case3 c s p hc hcan s' hr =>
    have htold := (h _ _ _ _ hr).trans (List.append_nil _)
    exact ⟨hchunk, hrest, htold.trans hgiven⟩
  | case4 c s p hc hcan e s' hr =>
    have htold := (h _ _ _ _ hr).trans (List.append_nil _)
    exact ⟨c.rest, hrest, htold.trans hgiven⟩
  | case5 c s p hc hcan s' hr =>
    have htold := (h _ _ _ _ hr).trans (List.append_nil _)
    rw [hgiven, rest, hc, Phase.rest, List.append_nil] at htold
    exact hnothing (p := p.close) htold
  | case6 c s p hc hcan b bs s' hr ih =>
    have hlength : (b :: bs).length ≤ max chunk 1 := by
      rw [← hchunk]
      exact Source.length_le hr
    have htold := h _ _ _ _ hr
    rw [hgiven, rest, hc, Phase.rest] at htold
    exact ih hchunk hlength (by simpa [Poll.piece, rest, Phase.rest] using htold)
  | case7 c s p n bs hc hcan => exact ⟨c.rest, hrest, hgiven⟩
  | case8 c s p n bs hc hcan left p' hw =>
    obtain ⟨front, back, hsum, hheld, hleaves⟩ := Pipe.keeps_held.leaves_writeAll bs p
    rw [hw] at hheld hleaves
    obtain ⟨rfl, -⟩ := hleaves
    rw [rest, hc, Phase.rest, ← hsum] at hgiven hrest
    rw [List.length_append] at hrest
    refine ⟨hchunk, ?_, ?_⟩
    · show back.length ≤ _
      omega
    · show given s = gone ++ p'.held ++ back
      rw [hgiven, (show p'.held = p.held ++ front from hheld)]
      simp only [List.append_assoc]
  | case9 c s p n bs hc hcan e p' hw =>
    obtain ⟨front, back, hsum, hheld, -⟩ := Pipe.keeps_held.leaves_writeAll bs p
    rw [hw] at hheld
    rw [rest, hc, Phase.rest, ← hsum] at hgiven hrest
    rw [List.length_append] at hrest
    refine ⟨back, by omega, ?_⟩
    rw [hgiven, (show p'.held = p.held ++ front from hheld)]
    simp only [List.append_assoc]
  | case10 c s p n bs hc hcan p' hw ih =>
    have hwrote := Pipe.keeps_held.writeAll bs p
    rw [hw] at hwrote
    refine ih hchunk (Nat.zero_le _) ?_
    rw [hgiven, (show p'.held = p.held ++ bs from hwrote), rest, hc, rest, Phase.rest, Phase.rest,
      List.append_nil, List.append_assoc]
  | case11 c s p n hc hcan => exact ⟨c.rest, hrest, hgiven⟩
  | case12 c s p n hc hcan p' hf => cases hf
  | case13 c s p n hc hcan e p' hf => cases hf
  | case14 c s p n hc hcan p' hf ih =>
    cases hf
    refine ih hchunk (Nat.zero_le _) ?_
    rw [hgiven, rest, hc]
    rfl

end Copy

/-! ## Streams -/

namespace Inbox

variable {σ : Type} [Source σ]

/-- The same answer over another source. -/
def Answer.over {σ' : Type} (a : Answer σ) (source : σ') : Answer σ' :=
  { next := a.next, inbox := a.inbox, source, reserves := a.reserves }

/-- Tapping a source changes no answer. -/
theorem poll_inner (cancelled : Bool) (i : Inbox) (t : Tapped σ) (r : Reserves) :
    i.poll cancelled t.inner r =
      (i.poll cancelled t r).over (i.poll cancelled t r).source.inner := by
  have hinner {room : Nat} {t t' : Tapped σ} {a : Poll (Except IoError Bytes)}
      (h : Source.read room t = (a, t')) : Source.read room t.inner = (a, t'.inner) :=
    (Tapped.read_eq h).1
  cases cancelled with
  | true =>
    rw [poll, poll]
    split <;> simp_all [Answer.over]
  | false =>
    generalize hlive : false = cancelled
    fun_induction poll cancelled i t r with subst hlive
    | case1 i t r hp =>
      rw [poll_of_over hp]
      rfl
    | case2 i t r hp hcan => cases hcan
    | case3 i t r hp hcan u q hu =>
      have hu : (i.codec.next i.buffer r).result = .ok (some q) := hu
      simp only [poll_of_draining hp, hu]
      rfl
    | case4 i t r hp hcan u x hu =>
      have hu : (i.codec.next i.buffer r).result = .error x := hu
      simp only [poll_of_draining hp, hu]
      rfl
    | case5 i t r hp hcan u hu ih =>
      have hu : (i.codec.next i.buffer r).result = .ok none := hu
      simp only [poll_of_draining hp, hu]
      exact ih
    | case6 i t r hp hcan => cases hcan
    | case7 i t r hp hcan t' hr =>
      rw [poll_of_gathering hp, hinner hr]
      rfl
    | case8 i t r hp hcan x t' hr =>
      rw [poll_of_gathering hp, hinner hr]
      rfl
    | case9 i t r hp hcan t' hr =>
      rw [poll_of_gathering hp, hinner hr]
      rfl
    | case10 i t r hp hcan b bs t' hr ih =>
      rw [poll_of_gathering hp, hinner hr]
      exact ih

/-- What every read keeps, a poll keeps. -/
theorem poll_preserves {Q : σ → Prop} (h : ∀ room s, Q s → Q (Source.read room s).2)
    (cancelled : Bool) (i : Inbox) (s : σ) (r : Reserves) (hs : Q s) :
    Q (i.poll cancelled s r).source := by
  fun_induction poll cancelled i s r with
  | case5 i s r hp hcan u hu ih => exact ih hs
  | case7 i s r hp hcan s' hr => simpa only [hr] using h i.room s hs
  | case8 i s r hp hcan x s' hr => simpa only [hr] using h i.room s hs
  | case9 i s r hp hcan s' hr => simpa only [hr] using h i.room s hs
  | case10 i s r hp hcan b bs s' hr ih => exact ih (by simpa only [hr] using h i.room s hs)
  | _ => exact hs

/-- A stream that turns to the source has no complete frame in its buffer. -/
def Hungry (i : Inbox) : Prop :=
  i.phase = .gathering → Frame.take i.codec.maxFrame i.buffer = .ok none

theorem hungry_finish (i : Inbox) : i.finish.Hungry := fun hphase => by cases hphase

theorem hungry_of_draining {i : Inbox} (h : i.phase = .draining) : i.Hungry :=
  fun hphase => by cases h.symm.trans hphase

/-- Whether a poll took each piece where the buffer held no complete frame. -/
structure Gathers (i : Inbox) (t : Tapped σ) (a : Answer (Tapped σ)) : Prop where
  hungry : a.inbox.Hungry
  pieces : ∃ new, a.source.pieces = t.pieces ++ new ∧ ∀ before piece, before ++ [piece] <+: new →
    Frame.take i.codec.maxFrame (i.buffer ++ before.flatten) = .ok none

omit [Source σ] in
theorem Gathers.of_none {i : Inbox} {t : Tapped σ} {a : Answer (Tapped σ)}
    (hungry : a.inbox.Hungry) (hsource : a.source.pieces = t.pieces) : Gathers i t a where
  hungry := hungry
  pieces := by
    refine ⟨[], hsource.trans (List.append_nil _).symm, fun before piece h => ?_⟩
    simp at h

omit [Source σ] in
theorem Gathers.of_one {i : Inbox} {t : Tapped σ} {a : Answer (Tapped σ)} {bs : Bytes}
    (hungry : a.inbox.Hungry) (hsource : a.source.pieces = t.pieces ++ [bs])
    (hnone : Frame.take i.codec.maxFrame i.buffer = .ok none) : Gathers i t a where
  hungry := hungry
  pieces := by
    refine ⟨[bs], hsource, fun before piece h => ?_⟩
    rcases before with - | ⟨x, before⟩
    · simpa using hnone
    · have hle := h.length_le
      simp at hle

theorem gathers_poll (cancelled : Bool) (i : Inbox) (t : Tapped σ) (r : Reserves)
    (h : i.Hungry) : Gathers i t (i.poll cancelled t r) := by
  have hpieces {room : Nat} {t t' : Tapped σ} {a : Poll (Except IoError Bytes)}
      (h : Source.read room t = (a, t')) : t'.pieces = t.pieces ++ a.piece :=
    (Tapped.read_eq h).2
  fun_induction poll cancelled i t r with
  | case1 i t r hp => exact .of_none h rfl
  | case2 i t r hp hcan => exact .of_none (hungry_finish i) rfl
  | case3 i t r hp hcan u q hu => exact .of_none (hungry_of_draining hp) rfl
  | case4 i t r hp hcan u x hu => exact .of_none (hungry_finish i) rfl
  | case5 i t r hp hcan u hu ih =>
    have hnone : Frame.take i.codec.maxFrame i.buffer = .ok none := Codec.next_eq_none_iff.mp hu
    have hleft : u.left = i.buffer := (Codec.next_of_no_take r hnone).2
    have hbuffer : (i.keep u.left).gather.buffer = i.buffer := hleft
    obtain ⟨hungry, new, hsource, hnew⟩ := ih fun _ => by rw [hbuffer]; exact hnone
    exact ⟨hungry, new, hsource, by rwa [hbuffer] at hnew⟩
  | case6 i t r hp hcan => exact .of_none (hungry_finish i) rfl
  | case7 i t r hp hcan t' hr =>
    exact .of_none (fun _ => h hp) ((hpieces hr).trans (List.append_nil _))
  | case8 i t r hp hcan x t' hr =>
    exact .of_none (hungry_finish i) ((hpieces hr).trans (List.append_nil _))
  | case9 i t r hp hcan t' hr => exact .of_one (hungry_finish i) (hpieces hr) (h hp)
  | case10 i t r hp hcan b bs t' hr ih =>
    obtain ⟨hungry, new, hsource, hnew⟩ := ih (hungry_of_draining rfl)
    refine ⟨hungry, (b :: bs) :: new, ?_, fun before piece hbefore => ?_⟩
    · rw [hsource, hpieces hr, List.append_assoc]
      rfl
    · rcases before with - | ⟨first, before⟩
      · simpa using h hp
      · obtain ⟨rfl, hrest⟩ := List.cons_prefix_cons.mp hbefore
        have hincomplete := hnew before piece hrest
        rwa [List.append_assoc] at hincomplete

end Inbox

end PacketWire
