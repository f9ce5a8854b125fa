import PacketWire.Proofs.Endpoint.Driving
import PacketWire.Proofs.Endpoint.Feed
import PacketWire.Proofs.Endpoint.Reading

/-!
# Answers of a source

`Noted σ` is a source that behaves as the one inside and notes what it is asked and what it answers.
`Uncut asks got` says that the answers hand out `got` and no ending, and `Cut asks got x` that they
hand out `got` and then, with the last one, the ending `x`. Reading one byte, or a known number of
them, fails just where an answer is an ending, and the failure is that ending's.
-/

namespace PacketWire

/-- A read, with the room for its bytes and its answer. -/
structure Ask where
  room : Nat
  answer : Poll (Except IoError Bytes)

structure Noted (σ : Type) where
  inner : σ
  asks : List Ask := []

namespace Noted

variable {σ : Type} [Source σ]

def read (room : Nat) (s : Noted σ) : Poll (Except IoError Bytes) × Noted σ :=
  let (answer, inner) := Source.read room s.inner
  (answer, { inner, asks := s.asks ++ [{ room, answer }] })

theorem read_eq {room : Nat} {s s' : Noted σ} {a : Poll (Except IoError Bytes)}
    (h : s.read room = (a, s')) :
    Source.read room s.inner = (a, s'.inner) ∧ s'.asks = s.asks ++ [{ room, answer := a }] := by
  cases h
  exact ⟨rfl, rfl⟩

instance : Source (Noted σ) where
  read := read
  backlog s := Source.backlog s.inner
  length_le h := Source.length_le (read_eq h).1
  backlog_lt_of_bytes h := Source.backlog_lt_of_bytes (read_eq h).1
  backlog_lt_of_error h := Source.backlog_lt_of_error (read_eq h).1

theorem inner_of_read {room : Nat} {s s' : Noted σ} {a : Poll (Except IoError Bytes)}
    (h : Source.read room s = (a, s')) : Source.read room s.inner = (a, s'.inner) :=
  (read_eq h).1

theorem asks_of_read {room : Nat} {s s' : Noted σ} {a : Poll (Except IoError Bytes)}
    (h : Source.read room s = (a, s')) : s'.asks = s.asks ++ [{ room, answer := a }] :=
  (read_eq h).2

end Noted

namespace Ask

def given : Ask → Bytes
  | { answer := .ready (.ok bs), .. } => bs
  | _ => []

/-- The ending that an answer reports: no bytes though there was room for some, or a failure that is
no disturbance. -/
def ending : Ask → Option Ending
  | { room, answer := .ready (.ok []) } => if room = 0 then none else some .closed
  | { answer := .ready (.error e), .. } =>
    if e.kind = .interrupted then none else some (.failed e)
  | _ => none

end Ask

/-- The failure that says how a source ended. -/
def Ending.cause : Ending → IoError
  | .closed => .ofKind .unexpectedEof
  | .failed e => e

def Ask.givenBy (asks : List Ask) : Bytes := asks.flatMap Ask.given

/-- The reads hand out `got`, and none is answered with an ending. -/
structure Uncut (asks : List Ask) (got : Bytes) : Prop where
  given : Ask.givenBy asks = got
  ending : ∀ a ∈ asks, a.ending = none

/-- The reads hand out `got`, and the last one is answered with the ending `x`. -/
def Cut (asks : List Ask) (got : Bytes) (x : Ending) : Prop :=
  ∃ before a, asks = before ++ [a] ∧ Uncut before got ∧ a.ending = some x

theorem Uncut.nil : Uncut [] [] := ⟨rfl, by simp⟩

theorem Uncut.concat {asks : List Ask} {got : Bytes} (h : Uncut asks got) {a : Ask}
    (ha : a.ending = none) : Uncut (asks ++ [a]) (got ++ a.given) where
  given := by simp [Ask.givenBy, ← h.given]
  ending := by
    simp only [List.mem_append, List.mem_singleton]
    rintro b (hb | rfl)
    · exact h.ending b hb
    · exact ha

theorem Uncut.quiet {asks : List Ask} {got : Bytes} (h : Uncut asks got) {a : Ask}
    (ha : a.ending = none) (hgiven : a.given = []) : Uncut (asks ++ [a]) got := by
  have hconcat := h.concat ha
  rwa [hgiven, List.append_nil] at hconcat

section

variable {asks : List Ask} {got : Bytes} {room : Nat}

theorem Uncut.pending (h : Uncut asks got) : Uncut (asks ++ [{ room, answer := .pending }]) got :=
  h.quiet rfl rfl

theorem Uncut.interrupted (h : Uncut asks got) {e : IoError} (he : e.kind = .interrupted) :
    Uncut (asks ++ [{ room, answer := .ready (.error e) }]) got :=
  h.quiet (by simp [Ask.ending, he]) rfl

theorem Uncut.data (h : Uncut asks got) (b : UInt8) (bs : Bytes) :
    Uncut (asks ++ [{ room, answer := .ready (.ok (b :: bs)) }]) (got ++ b :: bs) :=
  h.concat rfl

theorem Uncut.closed (h : Uncut asks got) (hroom : 0 < room) :
    Cut (asks ++ [{ room, answer := .ready (.ok []) }]) got .closed :=
  ⟨asks, _, rfl, h, if_neg (by omega)⟩

theorem Uncut.failed (h : Uncut asks got) {e : IoError} (he : e.kind ≠ .interrupted) :
    Cut (asks ++ [{ room, answer := .ready (.error e) }]) got (.failed e) :=
  ⟨asks, _, rfl, h, if_neg he⟩

end

variable {σ : Type} [Source σ]

/-- What reading one byte makes of the answers. -/
def ByteTold (got : Bytes) : Poll (Except IoError UInt8) × Noted σ → Prop
  | (.pending, s) => Uncut s.asks got
  | (.ready (.ok b), s) => Uncut s.asks (got ++ [b])
  | (.ready (.error e), s) => ∃ x, Cut s.asks got x ∧ x.cause = e

theorem told_readByte {s : Noted σ} {got : Bytes} (h : Uncut s.asks got) :
    ByteTold got (readByte s) := by
  fun_induction readByte s with
  | case1 s s' hr =>
    rw [ByteTold, Noted.asks_of_read hr]
    exact h.pending
  | case2 s e s' hr he ih =>
    refine ih ?_
    rw [Noted.asks_of_read hr]
    exact h.interrupted he
  | case3 s e s' hr he =>
    refine ⟨.failed e, ?_, rfl⟩
    rw [Noted.asks_of_read hr]
    exact h.failed he
  | case4 s s' hr =>
    refine ⟨.closed, ?_, rfl⟩
    rw [Noted.asks_of_read hr]
    exact h.closed Nat.one_pos
  | case5 s b bs s' hr =>
    obtain ⟨rfl, -⟩ := readByte_of_data hr
    rw [ByteTold, Noted.asks_of_read hr]
    exact h.data b []

/-- What reading a known number of bytes makes of the answers, where `before` was handed out
first. -/
def BytesTold (before : Bytes) (want : Nat) : Progress Bytes (Except IoError Bytes) × Noted σ → Prop
  | (.waiting got, s) => Uncut s.asks (before ++ got) ∧ got.length < want
  | (.done (.ok got), s) => Uncut s.asks (before ++ got) ∧ got.length = want
  | (.done (.error e), s) =>
    ∃ got x, Cut s.asks (before ++ got) x ∧ got.length < want ∧ x.cause = e

theorem told_readExact {s : Noted σ} {before got : Bytes} {want : Nat}
    (h : Uncut s.asks (before ++ got)) (hgot : got.length ≤ want) :
    BytesTold before want (readExact want got s) := by
  fun_induction readExact want got s with
  | case1 got s hle => exact ⟨h, by omega⟩
  | case2 got s hlt s' hr =>
    rw [BytesTold, Noted.asks_of_read hr]
    exact ⟨h.pending, by omega⟩
  | case3 got s hlt e s' hr he ih =>
    refine ih ?_ hgot
    rw [Noted.asks_of_read hr]
    exact h.interrupted he
  | case4 got s hlt e s' hr he =>
    refine ⟨got, .failed e, ?_, by omega, rfl⟩
    rw [Noted.asks_of_read hr]
    exact h.failed he
  | case5 got s hlt s' hr =>
    refine ⟨got, .closed, ?_, by omega, rfl⟩
    rw [Noted.asks_of_read hr]
    exact h.closed (by omega)
  | case6 got s hlt b bs s' hr ih =>
    have hlength : (b :: bs).length ≤ want - got.length := Source.length_le hr
    refine ih ?_ (by rw [List.length_append]; omega)
    rw [Noted.asks_of_read hr, ← List.append_assoc]
    exact h.data b bs

theorem readByte_inner (s : Noted σ) :
    readByte s.inner = ((readByte s).1, (readByte s).2.inner) := by
  fun_induction readByte s with
  | case1 s s' hr => exact readByte_of_pause (Noted.inner_of_read hr)
  | case2 s e s' hr he ih => rw [readByte_of_disturbance (Noted.inner_of_read hr) he, ih]
  | case3 s e s' hr he => exact readByte_of_failure (Noted.inner_of_read hr) he
  | case4 s s' hr => exact readByte_of_end (Noted.inner_of_read hr)
  | case5 s b bs s' hr => exact (readByte_of_data (Noted.inner_of_read hr)).2

theorem readExact_inner (want : Nat) (got : Bytes) (s : Noted σ) :
    readExact want got s.inner =
      ((readExact want got s).1, (readExact want got s).2.inner) := by
  fun_induction readExact want got s with
  | case1 got s hle => exact readExact_of_enough hle
  | case2 got s hlt s' hr => exact readExact_of_pause (by omega) (Noted.inner_of_read hr)
  | case3 got s hlt e s' hr he ih =>
    rw [readExact_of_disturbance (by omega) (Noted.inner_of_read hr) he, ih]
  | case4 got s hlt e s' hr he => exact readExact_of_failure (by omega) (Noted.inner_of_read hr) he
  | case5 got s hlt s' hr => exact readExact_of_end (by omega) (Noted.inner_of_read hr)
  | case6 got s hlt b bs s' hr ih =>
    rw [readExact_of_data (by omega) (Noted.inner_of_read hr), ih]

end PacketWire
