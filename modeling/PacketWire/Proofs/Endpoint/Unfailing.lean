import PacketWire.Endpoint.Script
import PacketWire.Proofs.Endpoint.Driving
import PacketWire.Proofs.Outbox

/-!
# Sinks that never fail

A sink is `Unfailing` in the states of `Q` if it takes something of what it is offered, or has its
writer wait, and takes nothing more when it is flushed. Whatever is written to such a sink and run
to its end succeeds, and the sink has then taken all of it. If the sink `Wakes` its writers, that
is, has them wait only so often in a row, every operation does come to its end.
-/

namespace PacketWire

/-! ## Sinks that never fail -/

variable {κ : Type} [Sink κ]

/-- Whether a sink in a state of `Q`, of which `taken` tells what it took, never fails. -/
structure Unfailing (taken : κ → Bytes) (Q : κ → Prop) : Prop where
  keeps : Keeps taken
  write : ∀ {bs : Bytes} {k k' : κ} {a : Poll (Except IoError Nat)}, bs ≠ [] → Q k →
    Sink.write bs k = (a, k') → Q k' ∧ (a = .pending ∨ ∃ n, a = .ready (.ok (n + 1)))
  flush : ∀ {k k' : κ} {a : Poll (Except IoError Unit)}, Q k → Sink.flush k = (a, k') →
    Q k' ∧ taken k' = taken k ∧ (a = .pending ∨ a = .ready (.ok ()))

/-- Whether a sink in a state of `Q` has its writers wait at most `pauses` times in a row. -/
structure Wakes (Q : κ → Prop) (pauses : κ → Nat) : Prop where
  write : ∀ {bs : Bytes} {k k' : κ}, Q k → Sink.write bs k = (.pending, k') → pauses k' < pauses k
  flush : ∀ {k k' : κ}, Q k → Sink.flush k = (.pending, k') → pauses k' < pauses k

variable {taken : κ → Bytes} {Q : κ → Prop} {pauses : κ → Nat} {bs : Bytes} {k k' : κ}

namespace Unfailing

theorem pushAll (h : Unfailing taken Q) (bs : Bytes) (hk : Q k) :
    Q (PacketWire.pushAll bs k).2.2 ∧ ∀ e, (PacketWire.pushAll bs k).1 ≠ .ready (.error e) := by
  fun_induction PacketWire.pushAll bs k with
  | case1 => exact ⟨hk, by simp⟩
  | case2 bs k hb k₁ hw => exact ⟨(h.write (by simpa using hb) hk hw).1, by simp⟩
  | case3 bs k hb e k₁ hw => simpa using (h.write (by simpa using hb) hk hw).2
  | case4 bs k hb k₁ hw => simpa using (h.write (by simpa using hb) hk hw).2
  | case5 bs k hb n k₁ hw ih => exact ih (h.write (by simpa using hb) hk hw).1

theorem writeAll (h : Unfailing taken Q) (bs : Bytes) (hk : Q k) :
    Q (PacketWire.writeAll bs k).2 ∧ ∀ e, (PacketWire.writeAll bs k).1 ≠ .done (.error e) := by
  have hpush := h.pushAll bs hk
  unfold PacketWire.writeAll
  split <;> rename_i hp <;> rw [hp] at hpush
  · exact ⟨hpush.1, by simp⟩
  · exact ⟨hpush.1, by simp⟩
  · exact absurd rfl (hpush.2 _)

theorem flushSink (h : Unfailing taken Q) (hk : Q k) :
    Q (PacketWire.flushSink k).2 ∧ taken (PacketWire.flushSink k).2 = taken k ∧
      ∀ e, (PacketWire.flushSink k).1 ≠ .done (.error e) := by
  unfold PacketWire.flushSink
  split <;> rename_i hf
  · obtain ⟨hq, htaken, -⟩ := h.flush hk hf
    exact ⟨hq, htaken, by simp⟩
  · obtain ⟨-, -, hanswer⟩ := h.flush hk hf
    simp at hanswer
  · obtain ⟨hq, htaken, -⟩ := h.flush hk hf
    exact ⟨hq, htaken, by simp⟩

end Unfailing

namespace Wakes

theorem pushAll (h : Wakes Q pauses) (hsink : Unfailing taken Q) (hk : Q k) {rest : Bytes}
    (hp : PacketWire.pushAll bs k = (.pending, rest, k')) :
    rest.length < bs.length ∨ rest.length = bs.length ∧ pauses k' < pauses k := by
  fun_induction PacketWire.pushAll bs k with
  | case1 => cases hp
  | case2 bs k hb k₁ hw =>
    cases hp
    exact .inr ⟨rfl, h.write hk hw⟩
  | case3 => cases hp
  | case4 => cases hp
  | case5 bs k hb n k₁ hw ih =>
    left
    have hpos : bs.length ≠ 0 := by simpa using hb
    have hrest := ih (hsink.write (by simpa using hb) hk hw).1 hp
    rw [List.length_drop] at hrest
    omega

theorem writeAll (h : Wakes Q pauses) (hsink : Unfailing taken Q) (hk : Q k) {rest : Bytes}
    (hw : PacketWire.writeAll bs k = (.waiting rest, k')) :
    rest.length < bs.length ∨ rest.length = bs.length ∧ pauses k' < pauses k := by
  have hpush := hsink.pushAll bs hk
  unfold PacketWire.writeAll at hw
  split at hw <;> rename_i hp
  · cases hw
    exact h.pushAll hsink hk hp
  · cases hw
  · rw [hp] at hpush
    exact absurd rfl (hpush.2 _)

theorem flushSink (h : Wakes Q pauses) (hk : Q k) {u : Unit}
    (hf : PacketWire.flushSink k = (.waiting u, k')) : pauses k' < pauses k := by
  unfold PacketWire.flushSink at hf
  split at hf <;> cases hf
  rename_i hflush
  exact h.flush hk hflush

end Wakes

/-- What has become of an operation that has made the sink hold `whole`. -/
def Settled (taken : κ → Bytes) (Q : κ → Prop) (whole : Bytes) (result : Except WireError Unit)
    (k : κ) : Prop :=
  result = .ok () ∧ Q k ∧ taken k = whole

namespace FrameWrite

variable {whole : Bytes} {w : FrameWrite}

/-- How far a frame has come that is to make the sink hold `whole`. -/
def Midway (taken : κ → Bytes) (Q : κ → Prop) (whole : Bytes) (w : FrameWrite) (k : κ) : Prop :=
  Q k ∧ taken k ++ w.rest = whole

theorem poll_unfailing (h : Unfailing taken Q) (w : FrameWrite) (k : κ)
    (hw : w.Midway taken Q whole k) :
    Comes (Midway taken Q whole) (Settled taken Q whole) (w.poll k) := by
  obtain ⟨hk, rfl⟩ := hw
  obtain ⟨hq, herror⟩ := h.writeAll w.rest hk
  have hwrote := h.keeps.writeAll w.rest k
  unfold poll
  split <;> rename_i hwrite <;> rw [hwrite] at hq herror hwrote
  · exact ⟨hq, hwrote⟩
  · exact absurd rfl (herror _)
  · exact ⟨rfl, hq, hwrote⟩

theorem finish_unfailing (h : Unfailing taken Q) {n : Nat} {result : Except WireError Unit}
    (hk : Q k) (hf : finish poll n w k = some (result, k')) :
    Settled taken Q (taken k ++ w.rest) result k' :=
  finish_comes (poll_unfailing h) ⟨hk, rfl⟩ hf

theorem exists_finish (h : Unfailing taken Q) (hwakes : Wakes Q pauses) (w : FrameWrite)
    (hk : Q k) : ∃ n, (finish poll n w k).isSome := by
  refine PacketWire.exists_finish (poll_unfailing h) (fun v _ => v.rest.length)
    (fun _ j => pauses j) ?_ (show w.Midway taken Q _ k from ⟨hk, rfl⟩)
  intro v j v' j' ⟨hj, _⟩ hp
  unfold poll at hp
  split at hp <;> cases hp
  rename_i hw
  exact hwakes.writeAll h hj hw

end FrameWrite

def pollFlush (_ : Unit) (k : κ) : Progress Unit (Except WireError Unit) × κ := flushSink k

theorem pollFlush_unfailing (h : Unfailing taken Q) {whole : Bytes} (u : Unit) (k : κ)
    (hk : Q k ∧ taken k = whole) :
    Comes (fun _ k => Q k ∧ taken k = whole) (Settled taken Q whole) (pollFlush u k) := by
  obtain ⟨hk, rfl⟩ := hk
  obtain ⟨hq, htaken, herror⟩ := h.flushSink hk
  unfold pollFlush
  rcases hf : flushSink k with ⟨v | e | v, k'⟩ <;> rw [hf] at hq htaken herror
  · exact ⟨hq, htaken⟩
  · exact absurd rfl (herror e)
  · exact ⟨rfl, hq, htaken⟩

theorem finish_pollFlush (h : Unfailing taken Q) {n : Nat} {result : Except WireError Unit}
    (hk : Q k) (hf : finish pollFlush n () k = some (result, k')) :
    Settled taken Q (taken k) result k' :=
  finish_comes (pollFlush_unfailing h) ⟨hk, rfl⟩ hf

theorem exists_finish_pollFlush (h : Unfailing taken Q) (hwakes : Wakes Q pauses) (hk : Q k) :
    ∃ n, (finish pollFlush n () k).isSome := by
  refine exists_finish (pollFlush_unfailing h) (fun _ _ => 0) (fun _ j => pauses j) ?_ ⟨hk, rfl⟩
  intro _ j _ j' ⟨hj, _⟩ hp
  exact .inr ⟨rfl, hwakes.flushSink hj hp⟩

/-! ## Flushes of an outbox -/

namespace Outbox

def Flush.length : Flush → Nat
  | .writing n _ => n
  | .flushing n => n

theorem length_flush (o : Outbox) : o.flush.length = o.staged.length := by
  unfold flush
  split
  · rename_i hnone
    rw [List.isEmpty_iff.mp hnone]
    rfl
  · rfl

/-- How far a flush of `n` bytes has come that is to make the sink hold `whole`. -/
structure Flush.Midway (taken : κ → Bytes) (Q : κ → Prop) (whole : Bytes) (n : Nat) (c : Codec)
    (f : Flush) (w : Outbox × κ) : Prop where
  state : Q w.2
  sum : taken w.2 ++ f.rest = whole
  tidy : f.Tidy w.1
  length : f.length = n
  codec : w.1.codec = c

/-- What has become of the flush when it is done. -/
structure Flush.Settled (taken : κ → Bytes) (Q : κ → Prop) (whole : Bytes) (n : Nat) (c : Codec)
    (result : Except WireError Nat) (w : Outbox × κ) : Prop where
  result : result = .ok n
  state : Q w.2
  taken : taken w.2 = whole
  outbox : w.1 = { codec := c, staged := [] }

variable {whole : Bytes} {n : Nat} {c : Codec} {o o' : Outbox}

theorem settle_unfailing (h : Unfailing taken Q) (hk : Q k) :
    Comes (Flush.Midway taken Q (taken k) n c) (Flush.Settled taken Q (taken k) n c)
      (Flush.settle n { codec := c, staged := [] } k) := by
  obtain ⟨hq, htaken, herror⟩ := h.flushSink hk
  unfold Flush.settle
  split <;> rename_i hf <;> rw [hf] at hq htaken herror
  · exact ⟨hq, (List.append_nil _).trans htaken, rfl, rfl, rfl⟩
  · exact absurd rfl (herror _)
  · exact ⟨rfl, hq, htaken, rfl⟩

def pollFlush (f : Flush) (w : Outbox × κ) :
    Progress Flush (Except WireError Nat) × Outbox × κ := f.poll w.1 w.2

theorem pollFlush_unfailing (h : Unfailing taken Q) (f : Flush) (w : Outbox × κ)
    (hf : f.Midway taken Q whole n c w) :
    Comes (Flush.Midway taken Q whole n c) (Flush.Settled taken Q whole n c) (pollFlush f w) := by
  obtain ⟨o, k⟩ := w
  obtain ⟨hk, rfl, htidy, rfl, rfl⟩ := hf
  unfold pollFlush
  cases f with
  | flushing m =>
    have hnone : o = { codec := o.codec, staged := [] } := by
      rw [← (show o.staged = [] from htidy)]
    have hsettled := settle_unfailing h (n := m) (c := o.codec) hk
    rw [← hnone] at hsettled
    rwa [Flush.rest, List.append_nil]
  | writing m rest =>
    obtain ⟨hq, herror⟩ := h.writeAll rest hk
    have hwrote := h.keeps.writeAll rest k
    unfold Flush.poll
    simp only
    split <;> rename_i hw <;> rw [hw] at hq herror hwrote
    · exact ⟨hq, hwrote, trivial, rfl, rfl⟩
    · exact absurd rfl (herror _)
    · rw [Flush.rest, ← (show taken _ = taken k ++ rest from hwrote)]
      exact settle_unfailing h hq

/-- How much a flush has still to do. -/
def Flush.left : Flush → Nat
  | .writing _ rest => rest.length + 1
  | .flushing _ => 0

theorem left_of_waiting (h : Unfailing taken Q) (hwakes : Wakes Q pauses) {f f' : Flush} (hk : Q k)
    (hp : f.poll o k = (.waiting f', o', k')) :
    f'.left < f.left ∨ f'.left = f.left ∧ pauses k' < pauses k := by
  have hsettle {m : Nat} {o o' : Outbox} {j j' : κ} {g : Flush} (hj : Q j)
      (hs : Flush.settle m o j = (.waiting g, o', j')) : g.left = 0 ∧ pauses j' < pauses j := by
    unfold Flush.settle at hs
    split at hs <;> cases hs
    rename_i hf
    exact ⟨rfl, hwakes.flushSink hj hf⟩
  cases f with
  | flushing m => exact .inr (hsettle hk hp)
  | writing m rest =>
    have hq := (h.writeAll rest hk).1
    unfold Flush.poll at hp
    simp only at hp
    split at hp <;> rename_i hw <;> rw [hw] at hq
    · cases hp
      rcases hwakes.writeAll h hk hw with hless | ⟨hsame, hless⟩
      · exact .inl (Nat.succ_lt_succ hless)
      · exact .inr ⟨congrArg Nat.succ hsame, hless⟩
    · cases hp
    · left
      rw [(hsettle hq hp).1]
      exact Nat.succ_pos _

omit [Sink κ] in
theorem midway_flush (hk : Q k) :
    o.flush.Midway taken Q (taken k ++ o.staged) o.staged.length o.codec (o, k) :=
  ⟨hk, congrArg _ o.rest_flush, o.tidy_flush, o.length_flush, rfl⟩

theorem finish_unfailing (h : Unfailing taken Q) {result : Except WireError Nat} {m : Nat}
    (hk : Q k) (hf : finish pollFlush m o.flush (o, k) = some (result, o', k')) :
    Flush.Settled taken Q (taken k ++ o.staged) o.staged.length o.codec result (o', k') :=
  finish_comes (pollFlush_unfailing h) (midway_flush hk) hf

theorem exists_finish (h : Unfailing taken Q) (hwakes : Wakes Q pauses) (hk : Q k) :
    ∃ m, (finish pollFlush m o.flush (o, k)).isSome := by
  have hmid : o.flush.Midway taken Q _ _ _ (o, k) := midway_flush hk
  refine PacketWire.exists_finish (pollFlush_unfailing h) (fun f _ => f.left)
    (fun _ w => pauses w.2) ?_ hmid
  intro f w f' w' hmid hp
  exact left_of_waiting h hwakes hmid.state hp

end Outbox

namespace Script

/-- Whether a script has its sink take something or wait, whatever is asked of it. -/
def Takes (s : Script) : Prop :=
  (∀ e ∈ s.writes, e = .pending ∨ ∃ n, e = .accept (n + 1)) ∧ ∀ e ∈ s.flushes, e = .pending

theorem keeps_written : Keeps written where
  ok {bs s s' n} h := by
    change s.write bs = _ at h
    unfold write at h
    split at h <;> cases h
    · simp [written, calls, SinkCall.bytes]
    · rename_i m es hs
      have htake : bs.take (min m bs.length) = bs.take m := by
        rw [← List.take_take, List.take_length]
      simp [written, calls, SinkCall.bytes, htake]
  pending {bs s s'} h := by
    change s.write bs = _ at h
    unfold write at h
    split at h <;> cases h
    rfl
  error {bs s s' e} h := by
    change s.write bs = _ at h
    unfold write at h
    split at h <;> cases h
    rfl

theorem unfailing : Unfailing written Takes where
  keeps := keeps_written
  write {bs s s' a} hne hs h := by
    change s.write bs = _ at h
    obtain ⟨hwrites, hflushes⟩ := hs
    have hpos : 0 < bs.length := List.length_pos_iff.mpr hne
    unfold write at h
    split at h <;> rename_i hevents <;> rw [hevents] at hwrites <;> cases h
    · exact ⟨⟨by simp [hevents], hflushes⟩, .inr ⟨bs.length - 1, by rw [Nat.sub_add_cancel hpos]⟩⟩
    · rename_i m es
      rcases hwrites _ (.head _) with heq | ⟨i, heq⟩ <;> cases heq
      exact ⟨⟨fun e he => hwrites e (.tail _ he), hflushes⟩,
        .inr ⟨min (i + 1) bs.length - 1, by congr; omega⟩⟩
    · exact ⟨⟨fun e he => hwrites e (.tail _ he), hflushes⟩, .inl rfl⟩
    · rcases hwrites _ (.head _) with heq | ⟨i, heq⟩ <;> cases heq
  flush {s s' a} hs h := by
    change s.flush = _ at h
    obtain ⟨hwrites, hflushes⟩ := hs
    unfold flush settle at h
    split at h
    rename_i hevents
    split at hevents <;> rename_i hlist <;> cases hevents <;> rw [hlist] at hflushes <;> cases h
    · exact ⟨⟨hwrites, by simp⟩, by simp [written, calls, SinkCall.bytes], .inr rfl⟩
    · exact ⟨⟨hwrites, fun e he => hflushes e (.tail _ he)⟩,
        by simp [written, calls, SinkCall.bytes], .inl rfl⟩
    · cases hflushes _ (.head _)

theorem wakes : Wakes Takes fun s => s.writes.length + s.flushes.length where
  write {bs s s'} _ h := by
    change s.write bs = _ at h
    unfold write at h
    split at h <;> rename_i hevents <;> cases h
    simp [hevents]
  flush {s s'} _ h := by
    change s.flush = _ at h
    unfold flush settle at h
    split at h
    rename_i hevents
    split at hevents <;> rename_i hlist <;> cases hevents <;> cases h
    simp [hlist]

end Script

end PacketWire
