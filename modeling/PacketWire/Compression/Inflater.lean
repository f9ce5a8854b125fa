import PacketWire.Basic

/-!
# Inflating call by call

An `Inflater` is fed and emptied in calls: each takes some of the input, puts out no more than
there is room for, and tells whether the stream goes on, ended or failed. `Inflater.inflate`
fills a buffer by one call. Such a call cannot tell a buffer that is too small from a stream that
is broken, and leaves the inflater of no more use. Where the buffer is full the stream is
therefore read a second time from its start, through a buffer of a fixed size, until it is known
whether it gives more than fits.
-/

namespace PacketWire.Compression

inductive Kind where
  | zlib
  | lz4
  | zstd
  deriving DecidableEq, Repr, Inhabited

def Kind.levelRange : Kind → Nat × Nat
  | .zlib => (0, 9)
  | .lz4 => (0, 12)
  | .zstd => (1, 22)

inductive Status where
  /-- The stream ended inside the buffer. -/
  | done
  /-- The buffer was full before the stream ended. -/
  | outputFull
  | corrupt
  deriving DecidableEq, Repr, Inhabited

/-- How inflating into a buffer ended. `written` is the front of the buffer as far as it was
written to. -/
structure Inflation where
  status : Status
  written : Bytes
  deriving DecidableEq, Repr, Inhabited

def Inflation.done (written : Bytes) : Inflation := { status := .done, written }

def Inflation.corrupt (written : Bytes) : Inflation := { status := .corrupt, written }

def Inflation.outputFull (written : Bytes) : Inflation := { status := .outputFull, written }

/-- Whether more calls follow, or this one has all of the input and all of the room. -/
inductive Flush where
  | none
  | finish
  deriving DecidableEq, Repr

inductive Verdict where
  /-- The stream wants more input or more room. -/
  | goesOn
  | ended
  | failed
  deriving DecidableEq, Repr

/-- What a call gives. `taken` counts the bytes of its input that it used. -/
structure Reply (σ : Type) where
  verdict : Verdict
  taken : Nat
  output : Bytes
  state : σ

/-- `call flush input room` on an inflater in one of its states. -/
structure Inflater (σ : Type) where
  start : σ
  call : Flush → Bytes → Nat → σ → Reply σ
  taken_le (flush : Flush) (input : Bytes) (room : Nat) (state : σ) :
    (call flush input room state).taken ≤ input.length
  output_le (flush : Flush) (input : Bytes) (room : Nat) (state : σ) :
    (call flush input room state).output.length ≤ room

/-- How far a pass over a stream is: the bytes it took and made, and the inflater's state. -/
structure Pass (σ : Type) where
  taken : Nat := 0
  made : Nat := 0
  state : σ

def Pass.after {σ : Type} (p : Pass σ) (reply : Reply σ) : Pass σ :=
  { taken := p.taken + reply.taken, made := p.made + reply.output.length, state := reply.state }

@[simp] theorem Pass.made_after {σ : Type} (p : Pass σ) (reply : Reply σ) :
    (p.after reply).made = p.made + reply.output.length := rfl

@[simp] theorem Pass.taken_after {σ : Type} (p : Pass σ) (reply : Reply σ) :
    (p.after reply).taken = p.taken + reply.taken := rfl

/-- What a round of a pass comes to. -/
inductive Turn (σ : Type) where
  | last (answer : Option Bool)
  | next (pass : Pass σ)

def scratchSize : Nat := 4096

namespace Inflater

variable {σ : Type} (I : Inflater σ)

/-- The next call of a pass, with the input that is left. -/
def resume (bs : Bytes) (room : Nat) (p : Pass σ) : Reply σ :=
  I.call .none (bs.drop p.taken) room p.state

/-- A call into the scratch buffer. The pass is over when it made more than `limit` bytes, or
changed nothing. -/
def round (bs : Bytes) (limit : Nat) (p : Pass σ) : Turn σ :=
  let reply := I.resume bs scratchSize p
  let q := p.after reply
  if reply.verdict = .failed then .last none
  else if limit < q.made then .last (some true)
  else if reply.verdict = .ended then .last (some false)
  else if q.made = p.made ∧ q.taken = p.taken then .last none
  else .next q

theorem of_round_eq_next {bs : Bytes} {limit : Nat} {p q : Pass σ}
    (h : I.round bs limit p = .next q) :
    let reply := I.resume bs scratchSize p
    reply.verdict = .goesOn ∧ q = p.after reply ∧ q.made ≤ limit ∧
      0 < reply.output.length + reply.taken := by
  dsimp only [round] at h ⊢
  generalize I.resume bs scratchSize p = reply at h ⊢
  cases hverdict : reply.verdict with
  | failed => simp [hverdict] at h
  | ended =>
    simp only [hverdict, reduceCtorEq, if_false, if_true] at h
    split at h <;> cases h
  | goesOn =>
    simp only [hverdict, reduceCtorEq, if_false] at h
    split at h
    · cases h
    · split at h
      · cases h
      · cases h
        rename_i hmore hidle
        rw [Pass.made_after, Pass.taken_after] at hidle
        exact ⟨rfl, rfl, Nat.le_of_not_lt hmore, by omega⟩

theorem left_lt_of_round {bs : Bytes} {limit : Nat} {p q : Pass σ}
    (h : I.round bs limit p = .next q) :
    (bs.length - q.taken) + (limit - q.made) < (bs.length - p.taken) + (limit - p.made) := by
  obtain ⟨-, rfl, hmade, hmoved⟩ := I.of_round_eq_next h
  have htaken : (I.resume bs scratchSize p).taken ≤ (bs.drop p.taken).length := I.taken_le _ _ _ _
  rw [List.length_drop] at htaken
  rw [Pass.made_after] at hmade
  rw [Pass.made_after, Pass.taken_after]
  omega

/-- Whether `bs` gives more than `limit` bytes, if that can be told. -/
def inflatesPast (bs : Bytes) (limit : Nat) (p : Pass σ) : Option Bool :=
  match _h : I.round bs limit p with
  | .last answer => answer
  | .next q => inflatesPast bs limit q
termination_by (bs.length - p.taken) + (limit - p.made)
decreasing_by exact I.left_lt_of_round _h

def inflate (bs : Bytes) (room : Nat) : Inflation :=
  let reply := I.call .finish bs room I.start
  match reply.verdict with
  | .ended => .done reply.output
  | .failed => .corrupt reply.output
  | .goesOn =>
    if reply.output.length = room then
      match I.inflatesPast bs room { state := I.start } with
      | some true => .outputFull reply.output
      | some false | none => .corrupt reply.output
    else .corrupt reply.output

end Inflater

end PacketWire.Compression
