import PacketWire.Endpoint.Writing

/-!
# Encrypted transports

A `Transform` works on a stream byte by byte and remembers a state. `Ciphered` applies one
transform to every byte read from a transport and another to every byte written. Bytes that are
encrypted and not yet taken by the transport are kept, and go out before anything new.
-/

namespace PacketWire

/-! ## Transforms -/

/-- How each byte is replaced, and the state that the next one meets. -/
structure Transform (ε : Type) where
  state : ε
  step : ε → UInt8 → UInt8 × ε

namespace Transform

variable {ε : Type}

/-- The bytes of `bs` from the state `s` on, and the state after them. -/
def applyFrom (step : ε → UInt8 → UInt8 × ε) : ε → Bytes → Bytes × ε
  | s, [] => ([], s)
  | s, b :: bs =>
    let (c, s) := step s b
    let (cs, s) := applyFrom step s bs
    (c :: cs, s)

def apply (t : Transform ε) (bs : Bytes) : Bytes × Transform ε :=
  let (cs, state) := applyFrom t.step t.state bs
  (cs, { t with state })

@[simp] theorem length_applyFrom (step : ε → UInt8 → UInt8 × ε) (s : ε) (bs : Bytes) :
    (applyFrom step s bs).1.length = bs.length := by
  induction bs generalizing s with
  | nil => rfl
  | cons b bs ih => simp [applyFrom, ih]

@[simp] theorem length_apply (t : Transform ε) (bs : Bytes) :
    (t.apply bs).1.length = bs.length := by
  simp [apply]

theorem applyFrom_append (step : ε → UInt8 → UInt8 × ε) (s : ε) (as bs : Bytes) :
    applyFrom step s (as ++ bs) =
      let (cs, s') := applyFrom step s as
      let (ds, s'') := applyFrom step s' bs
      (cs ++ ds, s'') := by
  induction as generalizing s with
  | nil => simp [applyFrom]
  | cons a as ih => simp [applyFrom, ih]

end Transform

/-! ## Transports -/

structure Ciphered (τ ε δ : Type) where
  inner : τ
  encrypt : Transform ε
  decrypt : Transform δ
  /-- Encrypted bytes that the transport has not taken. -/
  pending : Bytes := []

namespace Ciphered

variable {τ ε δ : Type} [Transport τ]

def read (room : Nat) (c : Ciphered τ ε δ) :
    Poll (Except IoError Bytes) × Ciphered τ ε δ :=
  match Source.read room c.inner with
  | (.pending, inner) => (.pending, { c with inner })
  | (.ready (.error e), inner) => (.ready (.error e), { c with inner })
  | (.ready (.ok bs), inner) =>
    let (plain, decrypt) := c.decrypt.apply bs
    (.ready (.ok plain), { c with inner, decrypt })

def drain (c : Ciphered τ ε δ) : Poll (Except IoError Unit) × Ciphered τ ε δ :=
  let (answer, pending, inner) := pushAll c.pending c.inner
  (answer, { c with inner, pending })

/-- Encrypts bytes behind those that are pending. -/
def encode (bs : Bytes) (c : Ciphered τ ε δ) : Ciphered τ ε δ :=
  { c with
    encrypt := (c.encrypt.apply bs).2
    pending := c.pending ++ (c.encrypt.apply bs).1 }

/-- Takes all of `bs` once nothing older is pending, and writes as much as the transport
takes now. -/
def write (bs : Bytes) (c : Ciphered τ ε δ) :
    Poll (Except IoError Nat) × Ciphered τ ε δ :=
  match c.drain with
  | (.pending, c) => (.pending, c)
  | (.ready (.error e), c) => (.ready (.error e), c)
  | (.ready (.ok ()), c) =>
    if bs.isEmpty then (.ready (.ok 0), c)
    else
      match (c.encode bs).drain with
      | (.ready (.error e), c) => (.ready (.error e), c)
      | (_, c) => (.ready (.ok bs.length), c)

/-- Acts on the transport once nothing is pending. -/
def afterDrain (act : τ → Poll (Except IoError Unit) × τ) (c : Ciphered τ ε δ) :
    Poll (Except IoError Unit) × Ciphered τ ε δ :=
  match c.drain with
  | (.ready (.ok ()), c) =>
    let (answer, inner) := act c.inner
    (answer, { c with inner })
  | (answer, c) => (answer, c)

theorem read_inner {room : Nat} {c c' : Ciphered τ ε δ} {bs : Bytes}
    (h : c.read room = (.ready (.ok bs), c')) :
    ∃ raw, Source.read room c.inner = (.ready (.ok raw), c'.inner) ∧ raw.length = bs.length := by
  unfold read at h
  split at h <;> rename_i hr <;> cases h
  exact ⟨_, hr, (Transform.length_apply ..).symm⟩

theorem read_error {room : Nat} {c c' : Ciphered τ ε δ} {e : IoError}
    (h : c.read room = (.ready (.error e), c')) :
    Source.read room c.inner = (.ready (.error e), c'.inner) := by
  unfold read at h
  split at h <;> rename_i hr <;> cases h
  exact hr

theorem drain_inner {c c' : Ciphered τ ε δ} {a : Poll (Except IoError Unit)}
    (h : c.drain = (a, c')) : pushAll c.pending c.inner = (a, c'.pending, c'.inner) := by
  cases h
  rfl

theorem patience_drain_le {c c' : Ciphered τ ε δ} {a : Poll (Except IoError Unit)}
    (h : c.drain = (a, c')) : Sink.patience c'.inner ≤ Sink.patience c.inner := by
  have hle := patience_pushAll_le c.pending c.inner
  rwa [drain_inner h] at hle

theorem patience_drain_lt {c c' : Ciphered τ ε δ} {e : IoError}
    (h : c.drain = (.ready (.error e), c')) (hk : e.kind = .interrupted) :
    Sink.patience c'.inner < Sink.patience c.inner :=
  patience_pushAll_lt _ _ (drain_inner h) hk

/-- The ways a write can go. -/
inductive Wrote (bs : Bytes) (c : Ciphered τ ε δ) :
    Poll (Except IoError Nat) → Ciphered τ ε δ → Prop where
  | waits {d : Ciphered τ ε δ} (older : c.drain = (.pending, d)) : Wrote bs c .pending d
  | stops {d : Ciphered τ ε δ} {e : IoError} (older : c.drain = (.ready (.error e), d)) :
      Wrote bs c (.ready (.error e)) d
  | idles {d : Ciphered τ ε δ} (older : c.drain = (.ready (.ok ()), d)) (empty : bs = []) :
      Wrote bs c (.ready (.ok 0)) d
  | fails {d d' : Ciphered τ ε δ} {e : IoError} (older : c.drain = (.ready (.ok ()), d))
      (own : (d.encode bs).drain = (.ready (.error e), d')) (some : bs ≠ []) :
      Wrote bs c (.ready (.error e)) d'
  | takes {d d' : Ciphered τ ε δ} {a : Poll (Except IoError Unit)}
      (older : c.drain = (.ready (.ok ()), d)) (own : (d.encode bs).drain = (a, d'))
      (some : bs ≠ []) (unfailing : ∀ e, a ≠ .ready (.error e)) :
      Wrote bs c (.ready (.ok bs.length)) d'

theorem wrote {bs : Bytes} {c c' : Ciphered τ ε δ} {a : Poll (Except IoError Nat)}
    (h : c.write bs = (a, c')) : Wrote bs c a c' := by
  unfold write at h
  split at h <;> rename_i hd
  · cases h
    exact .waits hd
  · cases h
    exact .stops hd
  · split at h
    · rename_i hb
      cases h
      exact .idles hd (List.isEmpty_iff.mp hb)
    · rename_i hb
      have hsome : bs ≠ [] := fun h => hb (List.isEmpty_iff.mpr h)
      split at h
      · rename_i hd'
        cases h
        exact .fails hd hd' hsome
      · rename_i hne hd'
        cases h
        exact .takes hd hd' hsome hne

theorem write_taken_le {bs : Bytes} {c c' : Ciphered τ ε δ} {n : Nat}
    (h : c.write bs = (.ready (.ok n), c')) : n ≤ bs.length := by
  cases wrote h with
  | idles => exact Nat.zero_le _
  | takes => exact Nat.le_refl _

theorem write_patience_le {bs : Bytes} {c c' : Ciphered τ ε δ} {p : Poll (Except IoError Nat)}
    (h : c.write bs = (p, c')) : Sink.patience c'.inner ≤ Sink.patience c.inner := by
  cases wrote h with
  | waits older | stops older | idles older => exact patience_drain_le older
  | fails older own | takes older own =>
    have first := patience_drain_le older
    exact Nat.le_trans (patience_drain_le own) first

theorem write_patience_lt {bs : Bytes} {c c' : Ciphered τ ε δ} {e : IoError}
    (h : c.write bs = (.ready (.error e), c')) (hk : e.kind = .interrupted) :
    Sink.patience c'.inner < Sink.patience c.inner := by
  cases wrote h with
  | stops older => exact patience_drain_lt older hk
  | fails older own =>
    have first := patience_drain_le older
    exact Nat.lt_of_lt_of_le (patience_drain_lt own hk) first

instance : Transport (Ciphered τ ε δ) where
  read := read
  backlog c := Source.backlog c.inner
  length_le h := by
    obtain ⟨raw, hr, hl⟩ := read_inner h
    exact hl ▸ Source.length_le hr
  backlog_lt_of_bytes h := by
    obtain ⟨raw, hr, hl⟩ := read_inner h
    match raw, hl with
    | _ :: _, _ => exact Source.backlog_lt_of_bytes hr
  backlog_lt_of_error h := Source.backlog_lt_of_error (read_error h)
  write := write
  flush := afterDrain Sink.flush
  shutdown := afterDrain Sink.shutdown
  patience c := Sink.patience c.inner
  taken_le := write_taken_le
  patience_le := write_patience_le
  patience_lt_of_interrupted := write_patience_lt
  callsBack c := Transport.callsBack c.inner
  release c := { c with inner := Transport.release c.inner }

end Ciphered

end PacketWire
