import PacketWire.Proofs.Endpoint.Intake

/-!
# Copying call by call

A `Copy.Call` is a call on one of the two ends of a copy, with its answer. `Copy.call` is the next
call that a copy makes and what the answer makes of it, and `Copy.trace` goes on from call to call
to where a poll ends, and keeps the calls. It ends where the poll ends (`Copy.trace_snd`), so it
tells in which order a poll calls both ends.
-/

namespace PacketWire.Copy

/-- A call on the source or on the sink. -/
inductive Call where
  | read (answer : Poll (Except IoError Bytes))
  | write (offered : Bytes) (answer : Poll (Except IoError Nat))
  | flush (answer : Poll (Except IoError Unit))
  | shutdown (answer : Poll (Except IoError Unit))

/-- What an answer makes of a copy. -/
inductive Turn where
  | onward (c : Copy)
  | stop (p : Progress Copy (Except WireError Nat))

def afterRead (c : Copy) : Poll (Except IoError Bytes) → Turn
  | .pending => .stop (.waiting c)
  | .ready (.error e) => .stop (.done (.error (.io e)))
  | .ready (.ok []) => .onward { c with phase := .closing }
  | .ready (.ok (b :: bs)) => .onward { c with phase := .writing (bs.length + 1) (b :: bs) }

/-- What is left of a chunk of `n` bytes was offered, and that is `bs`. -/
def afterWrite (c : Copy) (n : Nat) (bs : Bytes) : Poll (Except IoError Nat) → Turn
  | .pending => .stop (.waiting { c with phase := .writing n bs })
  | .ready (.error e) =>
    if e.kind = .interrupted then .onward { c with phase := .writing n bs }
    else .stop (.done (.error (.io e)))
  | .ready (.ok 0) => .stop (.done (.error (.io (.ofKind .writeZero))))
  | .ready (.ok (m + 1)) => .onward { c with phase := .writing n (bs.drop (m + 1)) }

def afterFlush (c : Copy) (n : Nat) : Poll (Except IoError Unit) → Turn
  | .pending => .stop (.waiting { c with phase := .flushing n })
  | .ready (.error e) => .stop (.done (.error (.io e)))
  | .ready (.ok ()) => .onward { c with phase := .reading, total := c.total + n }

def afterShutdown (c : Copy) : Poll (Except IoError Unit) → Turn
  | .pending => .stop (.waiting { c with phase := .closing })
  | .ready (.error e) => .stop (.done (.error (.io e)))
  | .ready (.ok ()) => .stop (.done (.ok c.total))

variable {σ κ : Type} [Source σ] [Sink κ]

def call (c : Copy) (s : σ) (k : κ) : Call × Turn × σ × κ :=
  match c.phase with
  | .reading =>
    let (a, s) := Source.read c.room s
    (.read a, c.afterRead a, s, k)
  | .writing n (b :: bs) =>
    let (a, k) := Sink.write (b :: bs) k
    (.write (b :: bs) a, c.afterWrite n (b :: bs) a, s, k)
  | .writing n [] | .flushing n =>
    let (a, k) := Sink.flush k
    (.flush a, c.afterFlush n a, s, k)
  | .closing =>
    let (a, k) := Sink.shutdown k
    (.shutdown a, c.afterShutdown a, s, k)

/-- The answers after which a copy makes another call in the same poll. -/
inductive Onward (c : Copy) (s : σ) (k : κ) : Call → Copy → σ → κ → Prop where
  | ended {s' : σ} : c.phase = .reading → Source.read c.room s = (.ready (.ok []), s') →
      Onward c s k (.read (.ready (.ok []))) { c with phase := .closing } s' k
  | fetched {b : UInt8} {bs : Bytes} {s' : σ} : c.phase = .reading →
      Source.read c.room s = (.ready (.ok (b :: bs)), s') →
      Onward c s k (.read (.ready (.ok (b :: bs))))
        { c with phase := .writing (bs.length + 1) (b :: bs) } s' k
  | disturbed {n : Nat} {b : UInt8} {bs : Bytes} {e : IoError} {k' : κ} :
      c.phase = .writing n (b :: bs) → Sink.write (b :: bs) k = (.ready (.error e), k') →
      e.kind = .interrupted →
      Onward c s k (.write (b :: bs) (.ready (.error e)))
        { c with phase := .writing n (b :: bs) } s k'
  | wrote {n m : Nat} {b : UInt8} {bs : Bytes} {k' : κ} : c.phase = .writing n (b :: bs) →
      Sink.write (b :: bs) k = (.ready (.ok (m + 1)), k') →
      Onward c s k (.write (b :: bs) (.ready (.ok (m + 1))))
        { c with phase := .writing n ((b :: bs).drop (m + 1)) } s k'
  | flushed {n : Nat} {k' : κ} : c.phase = .writing n [] ∨ c.phase = .flushing n →
      Sink.flush k = (.ready (.ok ()), k') →
      Onward c s k (.flush (.ready (.ok ())))
        { c with phase := .reading, total := c.total + n } s k'

variable {c c' : Copy} {s s' : σ} {k k' : κ} {x : Call}

theorem onward_of_call (h : c.call s k = (x, .onward c', s', k')) : Onward c s k x c' s' k' := by
  unfold call at h
  split at h <;> rename_i hc
  · generalize hr : Source.read c.room s = read at h
    obtain ⟨_ | _ | _ | ⟨b, bs⟩, s1⟩ := read <;> cases h
    · exact .ended hc hr
    · exact .fetched hc hr
  · rename_i n b bs
    generalize hw : Sink.write (b :: bs) k = write at h
    obtain ⟨_ | e | _ | m, k1⟩ := write
    · cases h
    · simp only [afterWrite] at h
      split at h <;> cases h
      exact .disturbed hc hw ‹_›
    · cases h
    · cases h
      exact .wrote hc hw
  · generalize hf : Sink.flush k = flush at h
    obtain ⟨_ | _ | _, k1⟩ := flush <;> cases h
    exact .flushed (.inl hc) hf
  · generalize hf : Sink.flush k = flush at h
    obtain ⟨_ | _ | _, k1⟩ := flush <;> cases h
    exact .flushed (.inr hc) hf
  · generalize Sink.shutdown k = shut at h
    obtain ⟨_ | _ | _, k1⟩ := shut <;> cases h

/-- The call that a copy which has to wait is waiting for. -/
def awaited (c : Copy) : Call :=
  match c.phase with
  | .reading => .read .pending
  | .writing _ bs => .write bs .pending
  | .flushing _ => .flush .pending
  | .closing => .shutdown .pending

/-- The answers with which a poll is over. -/
inductive Halts : Copy → Call → Progress Copy (Except WireError Nat) → Prop where
  | waits (c : Copy) : Halts c c.awaited (.waiting c)
  | written {c : Copy} {n : Nat} {x : Call} {p : Progress Copy (Except WireError Nat)} :
      c.phase = .writing n [] → Halts { c with phase := .flushing n } x p → Halts c x p
  | unread {c : Copy} {e : IoError} : c.phase = .reading →
      Halts c (.read (.ready (.error e))) (.done (.error (.io e)))
  | unwritten {c : Copy} {n : Nat} {bs : Bytes} {e : IoError} : c.phase = .writing n bs →
      Halts c (.write bs (.ready (.error e))) (.done (.error (.io e)))
  | stuck {c : Copy} {n : Nat} {bs : Bytes} : c.phase = .writing n bs →
      Halts c (.write bs (.ready (.ok 0))) (.done (.error (.io (.ofKind .writeZero))))
  | unflushed {c : Copy} {n : Nat} {e : IoError} : c.phase = .flushing n →
      Halts c (.flush (.ready (.error e))) (.done (.error (.io e)))
  | unshut {c : Copy} {e : IoError} : c.phase = .closing →
      Halts c (.shutdown (.ready (.error e))) (.done (.error (.io e)))
  | ended {c : Copy} : c.phase = .closing →
      Halts c (.shutdown (.ready (.ok ()))) (.done (.ok c.total))

omit [Source σ] [Sink κ] in
theorem halts_of_flush {n : Nat} {a : Poll (Except IoError Unit)}
    {p : Progress Copy (Except WireError Nat)} (hc : c.phase = .flushing n)
    (h : c.afterFlush n a = .stop p) : Halts c (.flush a) p := by
  obtain ⟨chunk, total, phase⟩ := c
  cases hc
  obtain _ | e | _ := a <;> cases h
  · exact .waits _
  · exact .unflushed rfl

theorem halts_of_call {p : Progress Copy (Except WireError Nat)}
    (h : c.call s k = (x, .stop p, s', k')) : Halts c x p := by
  obtain ⟨chunk, total, phase⟩ := c
  unfold call at h
  rcases phase with _ | ⟨n, _ | ⟨b, bs⟩⟩ | n | _
  · generalize Source.read _ s = read at h
    obtain ⟨_ | e | _ | _, s1⟩ := read <;> cases h
    · exact .waits _
    · exact .unread rfl
  · simp only [Prod.mk.injEq] at h
    obtain ⟨rfl, hstop, -⟩ := h
    exact .written rfl (halts_of_flush rfl hstop)
  · simp only at h
    generalize Sink.write (b :: bs) k = write at h
    obtain ⟨_ | e | _ | m, k1⟩ := write
    · cases h
      exact .waits _
    · simp only [afterWrite] at h
      split at h <;> cases h
      exact .unwritten rfl
    · cases h
      exact .stuck rfl
    · cases h
  · simp only [Prod.mk.injEq] at h
    obtain ⟨rfl, hstop, -⟩ := h
    exact halts_of_flush rfl hstop
  · generalize Sink.shutdown k = shut at h
    obtain ⟨_ | e | _, k1⟩ := shut <;> cases h
    · exact .waits _
    · exact .unshut rfl
    · exact .ended rfl

/-- What is left to do: up to the end of the source, and then up to the end of a chunk. -/
def toCall (c : Copy) (s : σ) (k : κ) : Nat × Nat :=
  match c.phase with
  | .closing => (0, 0)
  | .reading => (3 * Source.backlog s + 1, 0)
  | .flushing _ => (3 * Source.backlog s + 2, 0)
  | .writing _ bs => (3 * Source.backlog s + 3, Sink.patience k + bs.length)

theorem Onward.lessens (h : Onward c s k x c' s' k') :
    Prod.Lex (· < ·) (· < ·) (c'.toCall s' k') (c.toCall s k) := by
  unfold toCall
  cases h with
  | ended hc hr =>
    rw [hc]
    exact .left _ _ (Nat.succ_pos _)
  | fetched hc hr =>
    rw [hc]
    have hlt := Source.backlog_lt_of_bytes hr
    exact .left _ _ (by omega)
  | disturbed hc hw hk =>
    rw [hc]
    have hlt := Sink.patience_lt_of_interrupted hw hk
    exact .right _ (by omega)
  | wrote hc hw =>
    rw [hc]
    have hle := Sink.patience_le hw
    exact .right _ (by simp only [List.length_drop, List.length_cons]; omega)
  | flushed hc hf =>
    obtain hc | hc := hc <;> rw [hc]
    · exact .left _ _ (by simp)
    · exact .left _ _ (by simp)

/-- The calls of a poll in their order, and what they come to. -/
def trace (cancelled : Bool) (c : Copy) (s : σ) (k : κ) :
    List Call × Progress Copy (Except WireError Nat) × σ × κ :=
  if cancelled ∧ c.phase ≠ .closing then ([], .done (.error .cancelled), s, k)
  else
    match _h : c.call s k with
    | (x, .stop p, s, k) => ([x], p, s, k)
    | (x, .onward c, s, k) =>
      let (calls, rest) := trace cancelled c s k
      (x :: calls, rest)
termination_by c.toCall s k
decreasing_by exact (onward_of_call _h).lessens

/-! ## A trace of every poll -/

omit [Source σ] in
theorem pushAll_cons (b : UInt8) (bs : Bytes) (k : κ) :
    pushAll (b :: bs) k =
      match Sink.write (b :: bs) k with
      | (.pending, k) => (.pending, b :: bs, k)
      | (.ready (.error e), k) => (.ready (.error e), b :: bs, k)
      | (.ready (.ok 0), k) => (.ready (.error (.ofKind .writeZero)), b :: bs, k)
      | (.ready (.ok (m + 1)), k) => pushAll ((b :: bs).drop (m + 1)) k := by
  rw [pushAll]
  exact if_neg (by simp)

omit [Source σ] in
theorem pushAll_nil (k : κ) : pushAll [] k = (.ready (.ok ()), [], k) := by
  rw [pushAll]
  rfl

omit [Source σ] in
theorem writeAll_eq (bs : Bytes) (k : κ) :
    writeAll bs k =
      match pushAll bs k with
      | (.pending, rest, k) => (.waiting rest, k)
      | (.ready (.ok ()), _, k) => (.done (.ok ()), k)
      | (.ready (.error e), rest, k) =>
        if e.kind = .interrupted then writeAll rest k else (.done (.error e), k) := by
  rw [writeAll]
  split <;> rename_i h <;> rw [h]
  simp only [dite_eq_ite]

omit [Source σ] in
theorem writeAll_cons (b : UInt8) (bs : Bytes) (k : κ) :
    writeAll (b :: bs) k =
      match Sink.write (b :: bs) k with
      | (.pending, k) => (.waiting (b :: bs), k)
      | (.ready (.error e), k) =>
        if e.kind = .interrupted then writeAll (b :: bs) k else (.done (.error e), k)
      | (.ready (.ok 0), k) => (.done (.error (.ofKind .writeZero)), k)
      | (.ready (.ok (m + 1)), k) => writeAll ((b :: bs).drop (m + 1)) k := by
  rw [writeAll_eq, pushAll_cons]
  rcases Sink.write (b :: bs) k with ⟨_ | e | _ | m, k1⟩
  · rfl
  · rfl
  · rfl
  · exact (writeAll_eq _ k1).symm

theorem poll_eq_call {cancelled : Bool} {c : Copy} (h : ¬ (cancelled ∧ c.phase ≠ .closing)) (s : σ)
    (k : κ) :
    c.poll cancelled s k =
      match c.call s k with
      | (_, .stop p, s, k) => (p, s, k)
      | (_, .onward c, s, k) => c.poll cancelled s k := by
  obtain ⟨chunk, total, phase⟩ := c
  cases phase with
  | closing =>
    rw [poll]
    simp only [call, finish]
    rcases Sink.shutdown k with ⟨_ | _ | _, k1⟩ <;> rfl
  | reading =>
    obtain rfl : cancelled = false := by simpa using h
    rw [poll]
    simp only [call]
    rcases Source.read _ s with ⟨_ | _ | _ | ⟨b, bs⟩, s1⟩
    · rfl
    · rfl
    · show finish _ s1 k = poll _ _ s1 k
      rw [poll]
      rfl
    · rfl
  | writing n bs =>
    obtain rfl : cancelled = false := by simpa using h
    have hpoll (bs : Bytes) (k : κ) :=
      poll.eq_def false { chunk, total, phase := .writing n bs } s k
    simp only [Bool.false_eq_true, if_false] at hpoll
    rw [hpoll]
    cases bs with
    | nil =>
      simp only [call, writeAll_eq, pushAll_nil]
      rw [poll]
      rcases Sink.flush k with ⟨_ | _ | _, k1⟩ <;> rfl
    | cons b bs =>
      rw [writeAll_cons]
      simp only [call]
      rcases Sink.write (b :: bs) k with ⟨_ | e | _ | m, k1⟩
      · rfl
      · by_cases hk : e.kind = .interrupted
        · simp only [afterWrite, if_pos hk]
          exact (hpoll _ _).symm
        · simp only [afterWrite, if_neg hk]
      · rfl
      · exact (hpoll _ _).symm
  | flushing n =>
    obtain rfl : cancelled = false := by simpa using h
    rw [poll]
    simp only [call]
    rcases Sink.flush k with ⟨_ | _ | _, k1⟩ <;> rfl

theorem trace_snd (cancelled : Bool) (c : Copy) (s : σ) (k : κ) :
    (c.trace cancelled s k).2 = c.poll cancelled s k := by
  fun_induction trace cancelled c s k with
  | case1 c s k h =>
    obtain ⟨rfl, hphase⟩ := h
    exact (poll_of_cancelled hphase s k).symm
  | case2 c s k h x p s1 k1 hcall => rw [poll_eq_call h, hcall]
  | case3 c s k h x c1 s1 k1 hcall calls rest htrace ih =>
    rw [htrace] at ih
    rw [poll_eq_call h, hcall]
    exact ih

theorem trace_of_cancelled (h : c.phase ≠ .closing) (s : σ) (k : κ) :
    c.trace true s k = ([], .done (.error .cancelled), s, k) := by
  rw [trace, if_pos ⟨rfl, h⟩]

/-- A copy that shuts the sink down asks it once a poll, cancelled or not. -/
theorem trace_of_closing (h : c.phase = .closing) (cancelled : Bool) (s : σ) (k : κ) :
    c.trace cancelled s k = ([.shutdown (Sink.shutdown k).1], c.finish s k) := by
  obtain ⟨chunk, total, phase⟩ := c
  obtain rfl : phase = .closing := h
  rw [trace, if_neg (by simp)]
  simp only [call, finish]
  rcases Sink.shutdown k with ⟨_ | _ | _, k1⟩ <;> rfl

/-- Made one after the other, the calls get the answers that are with them. -/
inductive Plays (room : Nat) : List Call → σ × κ → σ × κ → Prop where
  | nil {w : σ × κ} : Plays room [] w w
  | read {calls : List Call} {a : Poll (Except IoError Bytes)} {s s' : σ} {k : κ} {w : σ × κ} :
      Source.read room s = (a, s') → Plays room calls (s', k) w →
      Plays room (.read a :: calls) (s, k) w
  | write {calls : List Call} {bs : Bytes} {a : Poll (Except IoError Nat)} {s : σ} {k k' : κ}
      {w : σ × κ} :
      Sink.write bs k = (a, k') → Plays room calls (s, k') w →
      Plays room (.write bs a :: calls) (s, k) w
  | flush {calls : List Call} {a : Poll (Except IoError Unit)} {s : σ} {k k' : κ} {w : σ × κ} :
      Sink.flush k = (a, k') → Plays room calls (s, k') w →
      Plays room (.flush a :: calls) (s, k) w
  | shutdown {calls : List Call} {a : Poll (Except IoError Unit)} {s : σ} {k k' : κ} {w : σ × κ} :
      Sink.shutdown k = (a, k') → Plays room calls (s, k') w →
      Plays room (.shutdown a :: calls) (s, k) w

/-- The call is made on the ends as they are. -/
theorem Plays.call {c : Copy} {s s' : σ} {k k' : κ} {x : Call} {t : Turn}
    (h : c.call s k = (x, t, s', k')) {calls : List Call} {w : σ × κ}
    (hplays : Plays c.room calls (s', k') w) : Plays c.room (x :: calls) (s, k) w := by
  unfold Copy.call at h
  split at h <;> cases h
  · exact .read rfl hplays
  · exact .write rfl hplays
  · exact .flush rfl hplays
  · exact .flush rfl hplays
  · exact .shutdown rfl hplays

theorem plays_trace (cancelled : Bool) (c : Copy) (s : σ) (k : κ) :
    Plays c.room (c.trace cancelled s k).1 (s, k) (c.trace cancelled s k).2.2 := by
  fun_induction trace cancelled c s k with
  | case1 c s k h => exact .nil
  | case2 c s k h x p s1 k1 hcall => exact .call hcall .nil
  | case3 c s k h x c1 s1 k1 hcall calls rest htrace ih =>
    have hroom : c1.room = c.room := by cases onward_of_call hcall <;> rfl
    rw [htrace, hroom] at ih
    exact .call hcall ih

end PacketWire.Copy
