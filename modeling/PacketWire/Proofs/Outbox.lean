import PacketWire.Outbox
import PacketWire.Proofs.Codec.Encode
import PacketWire.Proofs.Endpoint.Recorded

/-!
# Staging and handing over

Staging packets puts their frames one behind the other, up to the first packet that is refused.
Handing the staged bytes over to a pipe moves them there: `Flush.Handed` and `Close.Handed` are
all that one poll can do.
-/

namespace PacketWire

namespace Codec

/-- The frame of a packet, or nothing if the packet is refused. -/
def frameOf (c : Codec) (p : Outgoing) : Bytes := (c.encodeParts p []).2

/-- Whether a packet can be encoded. -/
def accepts (c : Codec) (p : Outgoing) : Bool := (c.encodeParts p []).1.isOk

theorem encodeParts_append (c : Codec) (p : Outgoing) (out : Bytes) :
    c.encodeParts p out = ((c.encodeParts p []).1, out ++ c.frameOf p) := by
  simp only [frameOf, encodeParts_eq, encodeBody_eq p.body_ne_nil]
  cases c.wrap p.body with
  | error e => simp
  | ok v =>
    simp only
    split <;> simp

theorem frameOf_of_refused {c : Codec} {p : Outgoing} (h : c.accepts p = false) :
    c.frameOf p = [] := by
  unfold accepts at h
  unfold frameOf
  rw [encodeParts_eq, encodeBody_eq p.body_ne_nil] at h ⊢
  split
  · rfl
  · rename_i z frame hw
    rw [hw] at h
    split
    · rfl
    · rename_i hm
      simp only [if_neg hm] at h
      cases h

theorem wrap_ne_cancelled (c : Codec) (body : Bytes) : c.wrap body ≠ .error .cancelled := by
  unfold wrap
  split
  · simp
  · split
    · simp
    · split
      · simp
      · split <;> simp

theorem encodeParts_ne_cancelled (c : Codec) (p : Outgoing) (out : Bytes) :
    (c.encodeParts p out).1 ≠ .error .cancelled := by
  have hwrap := c.wrap_ne_cancelled p.body
  rw [encodeParts_eq, encodeBody_eq p.body_ne_nil]
  cases hw : c.wrap p.body with
  | error e =>
    rw [hw] at hwrap
    exact fun h => hwrap (by rw [Except.error.inj h])
  | ok v =>
    simp only
    split <;> simp

end Codec

namespace Outbox

theorem stage_packet (o : Outbox) (p : Outgoing) (r : Reserves) :
    ((o.stage (.packet p) r).1.isOk = o.codec.accepts p ∧
        (o.stage (.packet p) r).1 ≠ .error .cancelled) ∧
      (o.stage (.packet p) r).2.1 = { o with staged := o.staged ++ o.codec.frameOf p } := by
  have hput := Codec.putItem_eq o.codec o.staged r (.packet p)
  rw [Codec.Item.body, ← Codec.encodeParts_eq, Codec.encodeParts_append, Prod.mk.injEq] at hput
  have hne := o.codec.encodeParts_ne_cancelled p []
  refine ⟨⟨?_, ?_⟩, by simp only [stage, hput.2]⟩
  · simp only [stage, hput.1, Codec.accepts]
    cases (o.codec.encodeParts p []).1 <;> rfl
  · simp only [stage, hput.1]
    revert hne
    cases (o.codec.encodeParts p []).1 <;> simp [Except.map]

/-- The frames of the packets before the first that is refused are staged, and the codec stays. -/
theorem stageAll_eq (o : Outbox) (r : Reserves) (ps : List Outgoing)
    {result : Except WireError Unit} {o' : Outbox} {r' : Reserves}
    (h : o.stageAll r ps = (result, o', r')) :
    o' = { o with staged := o.staged ++ (ps.takeWhile o.codec.accepts).flatMap o.codec.frameOf } ∧
      (result = .ok () → ps.takeWhile o.codec.accepts = ps) ∧ result ≠ .error .cancelled := by
  induction ps generalizing o r with
  | nil =>
    cases h
    exact ⟨by simp, fun _ => rfl, by simp⟩
  | cons p ps ih =>
    obtain ⟨⟨hok, hne⟩, hout⟩ := o.stage_packet p r
    rw [stageAll] at h
    split at h <;> rename_i hs <;> rw [hs] at hok hne hout
    · obtain ⟨ho, hall, hne'⟩ := ih _ _ h
      have hp : o.codec.accepts p = true := hok.symm
      subst hout
      simp only [List.takeWhile_cons, hp, if_true, List.flatMap_cons]
      exact ⟨by rw [ho, List.append_assoc], fun hr => by rw [hall hr], hne'⟩
    · cases h
      have hp : o.codec.accepts p = false := hok.symm
      simp only at hout
      rw [Codec.frameOf_of_refused hp, List.append_nil] at hout
      simp only [List.takeWhile_cons, hp]
      exact ⟨by simpa using hout, by simp, hne⟩

/-- The bytes that a flush has still to hand over. -/
def Flush.rest : Flush → Bytes
  | .writing _ rest => rest
  | .flushing _ => []

/-- A flush that has handed everything over has nothing staged behind it. -/
def Flush.Tidy : Flush → Outbox → Prop
  | .writing .., _ => True
  | .flushing _, o => o.staged = []

theorem rest_flush (o : Outbox) : o.flush.rest = o.staged := by
  unfold flush
  split
  · rename_i h
    exact (List.isEmpty_iff.mp h).symm
  · rfl

theorem tidy_flush (o : Outbox) : o.flush.Tidy o := by
  unfold flush
  split
  · rename_i h
    exact List.isEmpty_iff.mp h
  · trivial

/-- What a poll of the flush `f` of `o` into the pipe `p` can do. -/
def Flush.Handed (f : Flush) (o : Outbox) (p : Pipe) :
    Progress Flush (Except WireError Nat) × Outbox × Pipe → Prop
  | (answer, o', p') =>
    o'.codec = o.codec ∧ p'.closed = p.closed ∧
      match answer with
      | .waiting f' => p'.held ++ f'.rest = p.held ++ f.rest ∧ (f.Tidy o → f'.Tidy o')
      | .done (.ok _) => p'.held = p.held ++ f.rest ∧ (f.Tidy o → o'.staged = [])
      | .done (.error e) => p'.held <+: p.held ++ f.rest ∧ e ≠ .cancelled

theorem handed_flush (f : Flush) (o : Outbox) (p : Pipe) : f.Handed o p (f.poll o p) := by
  cases f with
  | flushing n => exact ⟨rfl, rfl, (List.append_nil _).symm, id⟩
  | writing n rest =>
    have hwrote := Pipe.keeps_held.writeAll rest p
    have hclosed := Pipe.closed_writeAll rest p
    unfold Flush.poll
    simp only
    split <;> rename_i hw <;> rw [hw] at hwrote hclosed
    · exact ⟨rfl, hclosed, hwrote, fun _ => trivial⟩
    · exact ⟨rfl, hclosed, hwrote, by simp⟩
    · exact ⟨rfl, hclosed, hwrote, fun _ => rfl⟩

def Close.rest : Close → Bytes
  | .flushing f => f.rest
  | .shuttingDown => []

/-- What a poll of the close `c` of `o` into the pipe `p` can do. -/
def Close.Handed (c : Close) (o : Outbox) (p : Pipe) :
    Progress Close (Except WireError Unit) × Outbox × Pipe → Prop
  | (answer, o', p') =>
    o'.codec = o.codec ∧
      match answer with
      | .waiting c' => p'.closed = p.closed ∧ p'.held ++ c'.rest = p.held ++ c.rest
      | .done (.ok ()) => p'.held = p.held ++ c.rest
      | .done (.error e) => p'.held <+: p.held ++ c.rest ∧ e ≠ .cancelled

theorem handed_close (c : Close) (o : Outbox) (p : Pipe) : c.Handed o p (c.poll o p) := by
  cases c with
  | shuttingDown => exact ⟨rfl, (List.append_nil _).symm⟩
  | flushing f =>
    have hhanded := handed_flush f o p
    unfold Close.poll
    simp only
    split <;> rename_i hf <;> rw [hf] at hhanded
    · exact ⟨hhanded.1, hhanded.2.1, hhanded.2.2.1⟩
    · exact ⟨hhanded.1, hhanded.2.2⟩
    · exact ⟨hhanded.1, hhanded.2.2.1⟩

end Outbox

end PacketWire
