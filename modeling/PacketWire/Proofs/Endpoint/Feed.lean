import PacketWire.Endpoint.Script

/-!
# What a source delivers

`Feeds s w e`: whoever reads on from `s`, with any room at every read, is handed `w` in non-empty
pieces, with any finite number of pauses between them, and then the ending `e`. `Brings s w` is the
same for a stream that ends with its last byte and may be disturbed on the way. Every script of such
answers feeds, or brings, what its events hold.
-/

namespace PacketWire

/-- How a source ends. -/
inductive Ending where
  | closed
  | failed (e : IoError)
  deriving DecidableEq, Repr

variable {σ : Type} [Source σ]

/-- What an answer of a source, and all that follow it, hand out. -/
inductive Gives : Poll (Except IoError Bytes) × σ → Bytes → Ending → Prop where
  | pending {s : σ} {w : Bytes} {e : Ending} :
      (∀ room, 0 < room → Gives (Source.read room s) w e) → Gives (.pending, s) w e
  | data {s : σ} {b : UInt8} {bs w : Bytes} {e : Ending} :
      (∀ room, 0 < room → Gives (Source.read room s) w e) →
      Gives (.ready (.ok (b :: bs)), s) (b :: bs ++ w) e
  | closed {s : σ} : Gives (.ready (.ok []), s) [] .closed
  | failed {s : σ} {e : IoError} : Gives (.ready (.error e), s) [] (.failed e)

def Feeds (s : σ) (w : Bytes) (e : Ending) : Prop :=
  ∀ room, 0 < room → Gives (Source.read room s) w e

/-- What the answers of a source hand out first, to whoever asks for no more; anything may come
behind. -/
inductive Serves : Poll (Except IoError Bytes) × σ → Bytes → Prop where
  | pending {s : σ} {w : Bytes} :
      (∀ room, 0 < room → room ≤ w.length → Serves (Source.read room s) w) → Serves (.pending, s) w
  | disturbed {s : σ} {e : IoError} {w : Bytes} : e.kind = .interrupted →
      (∀ room, 0 < room → room ≤ w.length → Serves (Source.read room s) w) →
      Serves (.ready (.error e), s) w
  | data {s : σ} {b : UInt8} {bs w : Bytes} :
      (∀ room, 0 < room → room ≤ w.length → Serves (Source.read room s) w) →
      Serves (.ready (.ok (b :: bs)), s) (b :: bs ++ w)

/-- Whoever reads on from `s`, and asks for no more than is left of `w`, is handed `w`. -/
def Supplies (s : σ) (w : Bytes) : Prop :=
  ∀ room, 0 < room → room ≤ w.length → Serves (Source.read room s) w

theorem serves_of_gives {g : Poll (Except IoError Bytes) × σ} {whole rest : Bytes} {e : Ending}
    (h : Gives g whole e) : ∀ {s : σ} {room : Nat} {w : Bytes}, Source.read room s = g → 0 < room →
      room ≤ w.length → whole = w ++ rest → Serves g w := by
  induction h with
  | pending _ ih =>
    intro s room w _ _ _ hw
    exact .pending fun room hroom hle => ih room hroom rfl hroom hle hw
  | @data s' b bs left e _ ih =>
    intro s room w hs _ hle hw
    have hlength : (b :: bs).length ≤ room := Source.length_le hs
    obtain ⟨more, rfl⟩ : b :: bs <+: w :=
      List.prefix_of_prefix_length_le ⟨left, rfl⟩ (hw ▸ List.prefix_append w rest) (by omega)
    rw [List.append_assoc] at hw
    exact .data fun room hroom hle => ih room hroom rfl hroom hle (List.append_cancel_left hw)
  | closed =>
    intro s room w _ hroom hle hw
    rw [(List.append_eq_nil_iff.mp hw.symm).1, List.length_nil] at hle
    omega
  | failed =>
    intro s room w _ hroom hle hw
    rw [(List.append_eq_nil_iff.mp hw.symm).1, List.length_nil] at hle
    omega

theorem Feeds.supplies {s : σ} {w rest : Bytes} {e : Ending} (h : Feeds s (w ++ rest) e) :
    Supplies s w :=
  fun room hroom hle => serves_of_gives (h room hroom) rfl hroom hle rfl

/-- What the answers of a source hand out up to the end of the stream. -/
inductive Yields : Poll (Except IoError Bytes) × σ → Bytes → Prop where
  | pending {s : σ} {w : Bytes} :
      (∀ room, 0 < room → Yields (Source.read room s) w) → Yields (.pending, s) w
  | disturbed {s : σ} {e : IoError} {w : Bytes} : e.kind = .interrupted →
      (∀ room, 0 < room → Yields (Source.read room s) w) → Yields (.ready (.error e), s) w
  | data {s : σ} {b : UInt8} {bs w : Bytes} :
      (∀ room, 0 < room → Yields (Source.read room s) w) →
      Yields (.ready (.ok (b :: bs)), s) (b :: bs ++ w)
  | closed {s : σ} : Yields (.ready (.ok []), s) []

/-- Whoever reads on from `s` is handed `w` and then the end, however often it has to wait or to try
again. -/
def Brings (s : σ) (w : Bytes) : Prop :=
  ∀ room, 0 < room → Yields (Source.read room s) w

def ReadEvent.bytes : ReadEvent → Bytes
  | .data bs => bs
  | _ => []

def ReadEvent.goesOn : ReadEvent → Bool
  | .data bs => bs ≠ []
  | .pending => true
  | _ => false

/-- Whether an event is a pause, a disturbance or a piece of the stream. -/
def ReadEvent.comesThrough : ReadEvent → Bool
  | .data bs => bs ≠ []
  | .pending => true
  | .fail e => e.kind = .interrupted
  | .endOfStream => false

def Ending.of : List ReadEvent → Option Ending
  | [] => some .closed
  | .endOfStream :: _ => some .closed
  | .fail e :: _ => some (.failed e)
  | _ => none

namespace Script

theorem feeds_ending {s : Script} {e : Ending} (hs : s.stalls = false)
    (h : Ending.of s.reads = some e) : Feeds s [] e := by
  intro room _
  show Gives (s.read room) [] e
  unfold Ending.of at h
  split at h
  · rename_i hr
    cases h
    simp only [read, hr, hs]
    exact .closed
  · rename_i hr
    cases h
    simp only [read, hr]
    exact .closed
  · rename_i hr
    cases h
    simp only [read, hr]
    exact .failed
  · cases h

/-- What holds of the answers behind a piece, and of an answer with some bytes before them, holds of
the piece, even where there is not enough room for it. -/
theorem pieces_of_data {P : Poll (Except IoError Bytes) × Script → Bytes → Prop} {w : Bytes}
    {es : List ReadEvent}
    (hdata : ∀ {s : Script} {b : UInt8} {bs w : Bytes},
      (∀ room, 0 < room → P (s.read room) w) → P (.ready (.ok (b :: bs)), s) (b :: bs ++ w))
    (h : ∀ s : Script, s.stalls = false → s.reads = es → ∀ room, 0 < room → P (s.read room) w) :
    ∀ (bs : Bytes) (s : Script), bs ≠ [] → s.stalls = false → s.reads = .data bs :: es →
      ∀ room, 0 < room → P (s.read room) (bs ++ w) := by
  intro bs
  induction hn : bs.length using Nat.strongRecOn generalizing bs with
  | ind n ih =>
    intro s hne hs hr room hroom
    obtain ⟨b, tail, rfl⟩ := List.exists_cons_of_ne_nil hne
    obtain ⟨room, rfl⟩ : ∃ k, room = k + 1 := ⟨room - 1, by omega⟩
    have hw : b :: tail ++ w = b :: tail.take room ++ (tail.drop room ++ w) := by
      rw [List.cons_append, List.cons_append, ← List.append_assoc, List.take_append_drop]
    simp only [read, hr, List.take_succ_cons, List.drop_succ_cons]
    rw [hw]
    by_cases hfit : (b :: tail).length ≤ room + 1
    · have hd : tail.drop room = [] := List.drop_eq_nil_of_le (by simpa using hfit)
      rw [if_pos hfit, hd]
      exact hdata (h _ hs rfl)
    · rw [if_neg hfit]
      simp only [List.length_cons] at hfit hn
      refine hdata (ih (tail.drop room).length ?_ (tail.drop room) rfl _ ?_ hs rfl)
      · rw [List.length_drop]; omega
      · intro hd
        have := congrArg List.length hd
        rw [List.length_drop, List.length_nil] at this
        omega

theorem feeds_data {es : List ReadEvent} {w : Bytes} {e : Ending}
    (h : ∀ s : Script, s.stalls = false → s.reads = es → Feeds s w e) :
    ∀ (bs : Bytes) (s : Script), bs ≠ [] → s.stalls = false → s.reads = .data bs :: es →
      Feeds s (bs ++ w) e :=
  pieces_of_data (P := fun g w => Gives g w e) .data h

theorem feeds (events last : List ReadEvent) {e : Ending} (hev : ∀ x ∈ events, x.goesOn)
    (he : Ending.of last = some e) (s : Script) (hs : s.stalls = false)
    (hr : s.reads = events ++ last) : Feeds s (events.flatMap (·.bytes)) e := by
  induction events generalizing s with
  | nil => exact feeds_ending hs (by rw [hr]; exact he)
  | cons x events ih =>
    rw [List.forall_mem_cons] at hev
    obtain ⟨hx, hev⟩ := hev
    cases x with
    | data bs =>
      have hne : bs ≠ [] := by simpa [ReadEvent.goesOn] using hx
      exact feeds_data (ih hev) bs s hne hs hr
    | pending =>
      intro room _
      show Gives (s.read room) _ e
      simp only [read, hr, List.cons_append]
      exact .pending (ih hev _ hs rfl)
    | endOfStream => cases hx
    | fail cause => cases hx

theorem brings_end {s : Script} (hs : s.stalls = false) (h : Ending.of s.reads = some .closed) :
    Brings s [] := by
  intro room _
  show Yields (s.read room) []
  unfold Ending.of at h
  split at h
  · rename_i hr
    simp only [read, hr, hs]
    exact .closed
  · rename_i hr
    simp only [read, hr]
    exact .closed
  · cases h
  · cases h

theorem brings (events last : List ReadEvent) (hev : ∀ x ∈ events, x.comesThrough)
    (hlast : Ending.of last = some .closed) (s : Script) (hs : s.stalls = false)
    (hr : s.reads = events ++ last) : Brings s (events.flatMap (·.bytes)) := by
  induction events generalizing s with
  | nil => exact brings_end hs (by rw [hr]; exact hlast)
  | cons x events ih =>
    rw [List.forall_mem_cons] at hev
    obtain ⟨hx, hev⟩ := hev
    cases x with
    | data bs =>
      have hne : bs ≠ [] := by simpa [ReadEvent.comesThrough] using hx
      exact pieces_of_data (P := Yields) .data (ih hev) bs s hne hs hr
    | pending =>
      intro room _
      show Yields (s.read room) _
      simp only [read, hr, List.cons_append]
      exact .pending (ih hev _ hs rfl)
    | endOfStream => cases hx
    | fail cause =>
      intro room _
      show Yields (s.read room) _
      simp only [read, hr, List.cons_append]
      exact .disturbed (by simpa [ReadEvent.comesThrough] using hx) (ih hev _ hs rfl)

end Script

end PacketWire
