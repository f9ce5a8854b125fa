import PacketWire.Compression.Inflater

/-!
# What filling a buffer tells of a stream

An `Account` is what there is to read at the start of an input when no buffer limits it.
`Inflater.Follows` says that the calls of an inflater keep to the account of an input: one call
with room for all of the text tells how it ends, and calls one after another put the text out in
its order. From this follows what `Inflater.inflate` answers for each size of buffer. The second
pass needs an argument of its own: it may go on from any state that calls can reach, and it is
settled by the last of its rounds.
-/

namespace PacketWire.Compression

/-- The text up to the end of a stream, the end of its input or its first fault; and how it stands
there. -/
structure Account where
  text : Bytes
  verdict : Verdict

namespace Inflater

variable {σ : Type} {I : Inflater σ} {bs : Bytes}

/-- The states of a fresh inflater that is always given the input it has not taken, with what it put
out. -/
inductive Reached (I : Inflater σ) (bs : Bytes) : Pass σ → Bytes → Prop where
  | start : Reached I bs { state := I.start } []
  | resume {p : Pass σ} {made : Bytes} (room : Nat) : Reached I bs p made →
      (I.resume bs room p).verdict = .goesOn →
      Reached I bs (p.after (I.resume bs room p)) (made ++ (I.resume bs room p).output)

/-- The calls on an input, each after what was put out before it. -/
inductive Called (I : Inflater σ) (bs : Bytes) : Bytes → Reply σ → Prop where
  | whole (room : Nat) : Called I bs [] (I.call .finish bs room I.start)
  | part {p : Pass σ} {made : Bytes} (room : Nat) : Reached I bs p made →
      Called I bs made (I.resume bs room p)

/-- The calls on `bs` keep to its account. Nothing is asked of call after call on a stream with a
fault. -/
structure Follows (I : Inflater σ) (bs : Bytes) (a : Account) : Prop where
  /-- One call is enough, if it has the input and the room; and no call ends another stream. -/
  settles {room : Nat} : a.verdict ≠ .goesOn → a.text.length ≤ room →
    (I.call .finish bs room I.start).verdict = a.verdict
  verified {room : Nat} : (I.call .finish bs room I.start).verdict = .ended → a.verdict = .ended
  in_order {made : Bytes} {reply : Reply σ} : Called I bs made reply → a.verdict ≠ .failed →
    made ++ reply.output <+: a.text
  complete {made : Bytes} {reply : Reply σ} : Called I bs made reply → a.verdict = .ended →
    reply.verdict = .ended → made ++ reply.output = a.text
  faultless {made : Bytes} {reply : Reply σ} : Called I bs made reply → a.verdict = .ended →
    reply.verdict ≠ .failed
  /-- A whole stream wants room where it does not end, and makes use of it. -/
  fills {room : Nat} : a.verdict = .ended →
    (I.call .finish bs room I.start).verdict = .goesOn →
    (I.call .finish bs room I.start).output.length = room
  moves {p : Pass σ} {made : Bytes} {room : Nat} : Reached I bs p made → a.verdict = .ended →
    0 < room → (I.resume bs room p).verdict = .goesOn →
    0 < (I.resume bs room p).output.length + (I.resume bs room p).taken

theorem Reached.made_eq {p : Pass σ} {made : Bytes} (h : Reached I bs p made) :
    p.made = made.length := by
  induction h with
  | start => rfl
  | resume room _ _ ih => rw [List.length_append, ← ih, Pass.made_after]

theorem Reached.made_after {p : Pass σ} {made : Bytes} (h : Reached I bs p made)
    (reply : Reply σ) : (p.after reply).made = (made ++ reply.output).length := by
  rw [Pass.made_after, h.made_eq, List.length_append]

theorem Reached.round {p q : Pass σ} {made : Bytes} {limit : Nat} (h : Reached I bs p made)
    (hround : I.round bs limit p = .next q) : ∃ made', Reached I bs q made' := by
  obtain ⟨hverdict, rfl, -⟩ := I.of_round_eq_next hround
  exact ⟨_, h.resume scratchSize hverdict⟩

theorem of_round_eq_last {p : Pass σ} {limit : Nat} {answer : Option Bool}
    (h : I.round bs limit p = .last answer) :
    let reply := I.resume bs scratchSize p
    (reply.verdict = .failed ∧ answer = none) ∨
      (limit < (p.after reply).made ∧ answer = some true) ∨
      ((p.after reply).made ≤ limit ∧ reply.verdict = .ended ∧ answer = some false) ∨
      (reply.verdict = .goesOn ∧ reply.output.length + reply.taken = 0 ∧ answer = none) := by
  dsimp only [Inflater.round] at h ⊢
  generalize I.resume bs scratchSize p = reply at h ⊢
  split at h
  · rename_i hfailed
    exact .inl ⟨hfailed, (Turn.last.inj h).symm⟩
  split at h
  · rename_i hmore
    exact .inr (.inl ⟨hmore, (Turn.last.inj h).symm⟩)
  rename_i hfailed hmore
  split at h
  · rename_i hended
    exact .inr (.inr (.inl ⟨Nat.le_of_not_lt hmore, hended, (Turn.last.inj h).symm⟩))
  rename_i hended
  split at h
  · rename_i hidle
    rw [Pass.made_after, Pass.taken_after] at hidle
    cases hverdict : reply.verdict with
    | goesOn => exact .inr (.inr (.inr ⟨rfl, by omega, (Turn.last.inj h).symm⟩))
    | ended => exact absurd hverdict hended
    | failed => exact absurd hverdict hfailed
  · cases h

theorem inflatesPast_of_last {p : Pass σ} {limit : Nat} {answer : Option Bool}
    (h : I.round bs limit p = .last answer) : I.inflatesPast bs limit p = answer := by
  rw [inflatesPast]
  split
  · rename_i hround
    exact Turn.last.inj (hround.symm.trans h)
  · rename_i hround
    cases hround.symm.trans h

theorem inflatesPast_of_next {p q : Pass σ} {limit : Nat} (h : I.round bs limit p = .next q) :
    I.inflatesPast bs limit p = I.inflatesPast bs limit q := by
  rw [inflatesPast]
  split
  · rename_i hround
    cases hround.symm.trans h
  · rename_i hround
    rw [Turn.next.inj (hround.symm.trans h)]

theorem Reached.last_round {p : Pass σ} {made : Bytes} (h : Reached I bs p made) (limit : Nat) :
    ∃ q out, Reached I bs q out ∧ I.round bs limit q = .last (I.inflatesPast bs limit p) := by
  fun_induction I.inflatesPast bs limit p generalizing made with
  | case1 p answer hround => exact ⟨p, made, h, hround⟩
  | case2 p q hround ih =>
    obtain ⟨made', hreached⟩ := h.round hround
    exact ih hreached

theorem last_round_of_start (I : Inflater σ) (bs : Bytes) (limit : Nat) :
    ∃ q out, Reached I bs q out ∧
      I.round bs limit q = .last (I.inflatesPast bs limit { state := I.start }) :=
  Reached.start.last_round limit

def rounds (I : Inflater σ) (bs : Bytes) (limit : Nat) : Nat → Pass σ → Turn σ
  | 0, p => .next p
  | k + 1, p =>
    match I.round bs limit p with
    | .last answer => .last answer
    | .next q => rounds I bs limit k q

/-- A pass is over after as many rounds as there are bytes to take and to make, and one more. -/
theorem rounds_of_left_lt {limit k : Nat} {p : Pass σ}
    (h : (bs.length - p.taken) + (limit - p.made) < k) :
    I.rounds bs limit k p = .last (I.inflatesPast bs limit p) := by
  induction k generalizing p with
  | zero => cases h
  | succ k ih =>
    cases hround : I.round bs limit p with
    | last answer => rw [rounds, hround, inflatesPast_of_last hround]
    | next q =>
      have hleft := I.left_lt_of_round hround
      rw [rounds, hround, inflatesPast_of_next hround]
      exact ih (by omega)

variable {a : Account}

/-- For a stream without faults the second pass tells whether its text is longer. -/
theorem Follows.inflatesPast_of_ended (h : Follows I bs a) (hended : a.verdict = .ended)
    (limit : Nat) :
    I.inflatesPast bs limit { state := I.start } = some (decide (limit < a.text.length)) := by
  obtain ⟨q, out, hreached, hround⟩ := last_round_of_start I bs limit
  have hcalled : Called I bs out _ := .part scratchSize hreached
  have hprefix := (h.in_order hcalled (by rw [hended]; decide)).length_le
  rw [← hreached.made_after] at hprefix
  obtain ⟨hfailed, -⟩ | ⟨hlt, heq⟩ | ⟨hle, hverdict, heq⟩ | ⟨hverdict, hidle, -⟩ :=
    of_round_eq_last hround
  · exact absurd hfailed (h.faultless hcalled hended)
  · rw [heq, decide_eq_true (by omega)]
  · have hlength := congrArg List.length (h.complete hcalled hended hverdict)
    rw [← hreached.made_after] at hlength
    rw [heq, decide_eq_false (by omega)]
  · exact absurd hidle (Nat.ne_of_gt (h.moves hreached hended (by decide) hverdict))

theorem Follows.lt_of_inflatesPast (h : Follows I bs a) (hsound : a.verdict ≠ .failed) {limit : Nat}
    (hpast : I.inflatesPast bs limit { state := I.start } = some true) :
    limit < a.text.length := by
  obtain ⟨q, out, hreached, hround⟩ := last_round_of_start I bs limit
  have hprefix := (h.in_order (.part scratchSize hreached) hsound).length_le
  rw [← hreached.made_after] at hprefix
  rw [hpast] at hround
  obtain ⟨-, heq⟩ | ⟨hlt, -⟩ | ⟨-, -, heq⟩ | ⟨-, -, heq⟩ := of_round_eq_last hround
  · cases heq
  · exact Nat.lt_of_lt_of_le hlt hprefix
  · cases heq
  · cases heq

theorem length_inflate_le (I : Inflater σ) (bs : Bytes) (room : Nat) :
    (I.inflate bs room).written.length ≤ room := by
  have hle := I.output_le .finish bs room I.start
  dsimp only [inflate]
  split
  · exact hle
  · exact hle
  · split
    · split <;> exact hle
    · exact hle

theorem Follows.inflate_of_fits (h : Follows I bs a) (hended : a.verdict = .ended) {room : Nat}
    (hfits : a.text.length ≤ room) : I.inflate bs room = .done a.text := by
  have hverdict := h.settles (by rw [hended]; decide) hfits
  rw [hended] at hverdict
  have htext := h.complete (.whole room) hended hverdict
  rw [List.nil_append] at htext
  simp only [inflate, hverdict, htext]

theorem Follows.of_inflate_done (h : Follows I bs a) {room : Nat}
    (hdone : (I.inflate bs room).status = .done) :
    a.verdict = .ended ∧ (I.inflate bs room).written = a.text := by
  cases hverdict : (I.call .finish bs room I.start).verdict with
  | ended =>
    have hended := h.verified hverdict
    simp only [inflate, hverdict]
    exact ⟨hended, h.complete (.whole room) hended hverdict⟩
  | failed =>
    simp only [inflate, hverdict] at hdone
    cases hdone
  | goesOn =>
    simp only [inflate, hverdict] at hdone
    split at hdone
    · split at hdone <;> cases hdone
    · cases hdone

theorem Follows.inflate_of_long (h : Follows I bs a) (hended : a.verdict = .ended) {room : Nat}
    (hlong : room < a.text.length) : I.inflate bs room = .outputFull (a.text.take room) := by
  have hle := I.output_le .finish bs room I.start
  cases hverdict : (I.call .finish bs room I.start).verdict with
  | ended =>
    have htext := h.complete (.whole room) hended hverdict
    rw [List.nil_append] at htext
    rw [htext] at hle
    exact absurd hlong (Nat.not_lt_of_le hle)
  | failed => exact absurd hverdict (h.faultless (.whole room) hended)
  | goesOn =>
    have hfull := h.fills hended hverdict
    have hprefix := h.in_order (.whole room) (by rw [hended]; decide)
    rw [List.nil_append, List.prefix_iff_eq_take, hfull] at hprefix
    have hpast := h.inflatesPast_of_ended hended room
    rw [decide_eq_true hlong] at hpast
    simp only [inflate, hverdict, hfull, if_true, hpast]
    rw [← hprefix]

/-- A stream that does not end is refused where its text is not longer than the buffer. -/
theorem Follows.status_of_unended (h : Follows I bs a) (hunended : a.verdict ≠ .ended) {room : Nat}
    (hfits : a.text.length ≤ room) : (I.inflate bs room).status = .corrupt := by
  cases hverdict : (I.call .finish bs room I.start).verdict with
  | ended => exact absurd (h.verified hverdict) hunended
  | failed => simp only [inflate, hverdict, Inflation.corrupt]
  | goesOn =>
    have hsound : a.verdict ≠ .failed := fun hfailed => by
      rw [h.settles (by rw [hfailed]; decide) hfits, hfailed] at hverdict
      cases hverdict
    simp only [inflate, hverdict]
    split
    · split
      · rename_i hpast
        exact absurd (h.lt_of_inflatesPast hsound hpast) (Nat.not_lt_of_le hfits)
      · rfl
      · rfl
    · rfl

end Inflater

end PacketWire.Compression
